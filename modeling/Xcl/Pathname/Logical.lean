import Mathlib
import Xcl.Pathname.Parts

/-!
# Logical pathnames

* `LogicalPathname.writeToString`: it tests whether `*PRINT-ESCAPE*` is the word 0, and not `NIL`;
* **`not_survives`**: with `*PRINT-ESCAPE*` `NIL` none does; and which do without the quotes.
-/

namespace Xcl.LogicalPathnames

open Pathnames

inductive Version
  | nil
  | newest
  | wild
  | integer (n : ℕ)
deriving DecidableEq

structure LogicalPathname where
  host : Text
  directory : List Value
  name : Value
  type : Value
  version : Version

/-! ## Reading -/

def parseLogicalPathnameDirectory (s : Text) : List Value :=
  if s.length > 1 ∧ s.head? = some ';' then ((tokens s.tail).foldl pushToken [.relative]).reverse
  else ((tokens s).foldl pushToken [.absolute]).reverse

/-- What is before and behind the first dot. -/
def splitDot (s : Text) : Option (Text × Text) :=
  match s.dropWhile (· ≠ '.') with
  | [] => none
  | _ :: rest => some (s.takeWhile (· ≠ '.'), rest)

def upcase (s : Text) : Text := s.map Char.toUpper

def wildOr (s : Text) : Value := if s = ['*'] then .wild else .string (upcase s)

/-- A version number is not set. -/
def parseVersion (v : Text) : Version :=
  if v = ['*'] then .wild
  else if v = "NEWEST".toList ∨ v = "newest".toList then .newest
  else .nil

def parseName (rest : Text) : Value × Value × Version :=
  match splitDot rest with
  | none => (if rest = [] then .nil else wildOr rest, .nil, .nil)
  | some (n, rest) =>
    match splitDot rest with
    | none => (wildOr n, wildOr rest, .nil)
    | some (t, v) => (wildOr n, wildOr t, parseVersion v)

/-- `LogicalPathname::LogicalPathname` -/
def LogicalPathname.ofText (host rest : Text) : LogicalPathname :=
  let (directory, rest) := match lastIndexOf ';' rest with
    | some semi => (parseLogicalPathnameDirectory (rest.take semi), rest.drop (semi + 1))
    | none => ([.absolute], rest)
  let (name, type, version) := parseName rest
  { host, directory, name, type, version }

/-! ## Printing -/

/-- The value of a cons; that of a fixnum is the number times a power of two. -/
def makeValue (cons : BitVec 64) : BitVec 64 := cons ||| 1

namespace LogicalPathname

-- `prin1_to_string` of a component, and `write_to_string` of an integer.
variable (prin1 : Value → Text) (digits : ℕ → Text)

/-- The message of a file error. -/
def unsupported (c : Value) : Text := "Unsupported directory component ".toList ++ prin1 c

def componentText : Value → Except Text Text
  | .string s => .ok s
  | .wild => .ok ['*']
  | .wildInferiors => .ok ['*', '*']
  | .up => .ok ['.', '.']
  | c => .error (unsupported prin1 c)

def componentsText : List Value → Except Text Text
  | [] => .ok []
  | c :: directory => do
    let s ← componentText prin1 c
    let rest ← componentsText directory
    return s ++ ';' :: rest

def directoryNamestring : List Value → Except Text Text
  | [] => .ok []
  | .absolute :: directory => componentsText prin1 directory
  | .relative :: directory => do
    let rest ← componentsText prin1 directory
    return ';' :: rest
  | c :: _ => .error (unsupported prin1 c)

def versionText : Version → Text
  | .nil => []
  | .newest => ".NEWEST".toList
  | .wild => ".*".toList
  | .integer n => '.' :: upcase (digits n)

/-- `LogicalPathname::write_to_string`, with the values of `*PRINT-ESCAPE*` and
`*PRINT-READABLY*`. -/
def writeToString (printEscape printReadably : BitVec 64) (p : LogicalPathname) :
    Except Text Text := do
  let escape : Bool := printEscape != 0 || printReadably != 0
  let d ← directoryNamestring prin1 p.directory
  return (if escape then ['#', 'P', '"'] else []) ++ p.host ++ ':' :: d ++
    Pathname.nameText p.name ++ Pathname.typeText p.type ++ versionText digits p.version ++
    if escape then ['"'] else []

end LogicalPathname

/-! ## What should survive -/

/-- Letters in upper case, digits and hyphens. -/
def isWordChar (c : Char) : Bool := c.isUpper || c.isDigit || c = '-'

def Word (s : Text) : Prop := s ≠ [] ∧ ∀ c ∈ s, isWordChar c = true

def Printable : Value → Prop
  | .string s => Word s
  | .wild => True
  | _ => False

structure LogicalPathname.Ordinary (p : LogicalPathname) : Prop where
  host : ':' ∉ p.host
  directory : ∃ ds, (p.directory = .absolute :: ds ∨ p.directory = .relative :: ds ∧ ds ≠ []) ∧
    ∀ d ∈ ds, d = .wildInferiors ∨ Printable d
  name : Printable p.name
  type : p.type = .nil ∨ Printable p.type
  version : p.version ≠ .nil → p.type ≠ .nil

def afterColon (s : Text) : Text := (s.dropWhile (· ≠ ':')).tail

/-- The text behind the colon is read as the same components. -/
def Survives (prin1 : Value → Text) (digits : ℕ → Text) (printEscape printReadably : BitVec 64)
    (p : LogicalPathname) : Prop :=
  ∃ s, p.writeToString prin1 digits printEscape printReadably = .ok s ∧
    let q := LogicalPathname.ofText p.host (afterColon s)
    q.directory = p.directory ∧ q.name = p.name ∧ q.type = p.type ∧ q.version = p.version

/-! ## Parts of the text -/

section Parts

variable {c : Char} {s n rest : Text} {u v : Value} {version : Version} (digits : ℕ → Text)

theorem not_mem_of_word (h : Word s) (hc : isWordChar c = false) : c ∉ s := fun hmem => by
  rw [h.2 c hmem] at hc
  cases hc

theorem toUpper_of_isWordChar (hc : isWordChar c = true) : c.toUpper = c := by
  have hlower : ¬('a'.val ≤ c.val ∧ c.val ≤ 'z'.val) := by
    rintro ⟨hle, hge⟩
    have h1 : 97 ≤ c.val.toNat := hle
    have h2 : c.val.toNat ≤ 122 := hge
    simp only [isWordChar, Char.isUpper, Char.isDigit, Bool.or_eq_true, Bool.and_eq_true,
      decide_eq_true_eq] at hc
    rcases hc with (⟨-, hc⟩ | ⟨-, hc⟩) | rfl
    · have : c.val.toNat ≤ 90 := hc
      omega
    · have : c.val.toNat ≤ 57 := hc
      omega
    · revert h1
      decide
  exact dif_neg hlower

theorem upcase_of_word (h : Word s) : upcase s = s :=
  (List.map_congr_left fun c hc => toUpper_of_isWordChar (h.2 c hc)).trans (List.map_id s)

theorem splitDot_append (h : '.' ∉ n) : splitDot (n ++ '.' :: rest) = some (n, rest) := by
  have hpos : ∀ c ∈ n, decide (c ≠ '.') = true := fun c hc =>
    decide_eq_true fun he => h (by rwa [← he])
  rw [splitDot, List.dropWhile_append_of_pos hpos, List.dropWhile_cons_of_neg (by decide),
    List.takeWhile_append_of_pos hpos, List.takeWhile_cons_of_neg (by decide), List.append_nil]

theorem splitDot_of_not_mem (h : '.' ∉ n) : splitDot n = none := by
  have hpos : ∀ c ∈ n, decide (c ≠ '.') = true := fun c hc =>
    decide_eq_true fun he => h (by rwa [← he])
  rw [splitDot, ← List.append_nil n, List.dropWhile_append_of_pos hpos]
  rfl

theorem tokens_of_not_mem (h : '/' ∉ s) (hne : s ≠ []) : tokens s = [s] := by
  induction s with
  | nil => exact absurd rfl hne
  | cons c s ih =>
    rw [List.mem_cons, not_or] at h
    rw [tokens, if_neg (Ne.symm h.1)]
    cases s with
    | nil => rfl
    | cons d s => rw [ih h.2 (List.cons_ne_nil d s)]

/-- The characters of what is printed for a word or `:WILD`. -/
theorem not_mem_nameText (hv : Printable v) (hc : isWordChar c = false) (hstar : c ≠ '*') :
    c ∉ Pathname.nameText v := by
  cases v with
  | string s => exact not_mem_of_word hv hc
  | wild => exact fun h => hstar (List.mem_singleton.1 h)
  | nil | absolute | relative | up | wildInferiors | other => exact hv.elim

theorem nameText_ne_nil (hv : Printable v) : Pathname.nameText v ≠ [] := by
  cases v with
  | string s => exact hv.1
  | wild => exact List.cons_ne_nil _ _
  | nil | absolute | relative | up | wildInferiors | other => exact hv.elim

theorem wildOr_iff (hv : Printable v) {q : Text} (hq : q = [] ∨ q = ['"']) :
    wildOr (Pathname.nameText v ++ q) = v ↔ q = [] := by
  rcases hq with rfl | rfl
  · rw [List.append_nil, eq_self, iff_true]
    cases v with
    | string s =>
      have hs : s ≠ ['*'] := fun h => absurd (hv.2 '*' (by rw [h]; decide)) (by decide)
      exact (if_neg hs).trans (congrArg _ (upcase_of_word hv))
    | wild => rfl
    | nil | absolute | relative | up | wildInferiors | other => exact hv.elim
  · refine iff_of_false (fun h => ?_) (List.cons_ne_nil _ _)
    have hlength := List.length_pos_iff.2 (nameText_ne_nil hv)
    have hne : Pathname.nameText v ++ ['"'] ≠ ['*'] := fun h => by
      have := congrArg List.length h
      simp only [List.length_append, List.length_singleton] at this
      omega
    rw [wildOr, if_neg hne] at h
    cases v with
    | string s =>
      have := congrArg List.length (Value.string.inj h)
      simp [upcase, Pathname.nameText] at this
    | wild => cases h
    | nil | absolute | relative | up | wildInferiors | other => exact hv.elim

theorem parseVersion_iff (hint : ∀ k, version ≠ .integer k) (hnil : version ≠ .nil) {q : Text}
    (hq : q = [] ∨ q = ['"']) : ∃ t, LogicalPathname.versionText digits version = '.' :: t ∧
      (parseVersion (t ++ q) = version ↔ q = []) := by
  cases version with
  | nil => exact absurd rfl hnil
  | integer k => exact absurd rfl (hint k)
  | newest | wild => rcases hq with rfl | rfl <;> exact ⟨_, rfl, by decide⟩

/-- Behind the directory, all is read as it was printed unless a quote follows. -/
theorem parseName_iff (hn : Printable u) (ht : v = .nil ∨ Printable v)
    (hv : version ≠ .nil → v ≠ .nil) (hint : ∀ k, version ≠ .integer k) {q : Text}
    (hq : q = [] ∨ q = ['"']) : parseName (Pathname.nameText u ++ Pathname.typeText v ++
      LogicalPathname.versionText digits version ++ q) = (u, v, version) ↔ q = [] := by
  have hdot : '.' ∉ q := by rcases hq with rfl | rfl <;> decide
  have hudot := not_mem_nameText hn (c := '.') (by decide) (by decide)
  have hname : wildOr (Pathname.nameText u) = u := by
    have := (wildOr_iff hn (Or.inl rfl)).2 rfl
    rwa [List.append_nil] at this
  rcases ht with rfl | ht
  · obtain rfl : version = .nil := by_contra fun h => hv h rfl
    have hnone : splitDot (Pathname.nameText u ++ q) = none :=
      splitDot_of_not_mem (by rw [List.mem_append, not_or]; exact ⟨hudot, hdot⟩)
    have hne : Pathname.nameText u ++ q ≠ [] := by simp [nameText_ne_nil hn]
    simp only [Pathname.typeText, LogicalPathname.versionText, if_true, List.append_nil, parseName,
      hnone, if_neg hne, Prod.mk.injEq, and_true]
    exact wildOr_iff hn hq
  · have hvnil : v ≠ .nil := by rintro rfl; exact ht
    have hvdot := not_mem_nameText ht (c := '.') (by decide) (by decide)
    rw [Pathname.typeText, if_neg hvnil, List.append_assoc, List.append_assoc, List.cons_append,
      parseName, splitDot_append hudot]
    by_cases hversion : version = .nil
    · subst hversion
      have hnone : splitDot (Pathname.nameText v ++ q) = none :=
        splitDot_of_not_mem (by rw [List.mem_append, not_or]; exact ⟨hvdot, hdot⟩)
      simp only [LogicalPathname.versionText, List.nil_append, hnone, Prod.mk.injEq, hname,
        true_and, and_true]
      exact wildOr_iff ht hq
    · obtain ⟨t, htext, hparse⟩ := parseVersion_iff digits hint hversion hq
      have htype : wildOr (Pathname.nameText v) = v := by
        have := (wildOr_iff ht (Or.inl rfl)).2 rfl
        rwa [List.append_nil] at this
      simp only [htext, List.cons_append, splitDot_append hvdot, Prod.mk.injEq, hname, htype,
        true_and]
      exact hparse

theorem parseName_ne_integer (s : Text) (k : ℕ) : (parseName s).2.2 ≠ .integer k := by
  have hparse : ∀ t, parseVersion t ≠ .integer k := fun t => by
    unfold parseVersion
    split_ifs <;> nofun
  unfold parseName
  split
  · nofun
  · split
    · nofun
    · exact hparse _

end Parts

/-! ## The directory -/

section Directory

variable {s : Text} {c : Value} {ds : List Value} (prin1 : Value → Text)

/-- Without slashes there is at most one component. -/
theorem length_parse (h : '/' ∉ s) : (parseLogicalPathnameDirectory s).length ≤ 2 := by
  have hfold : ∀ {t : Text} {k : Value}, '/' ∉ t → (∀ x, k ≠ .string x) →
      ((tokens t).foldl pushToken [k]).reverse.length ≤ 2 := by
    intro t k ht hk
    by_cases hnil : t = []
    · rw [hnil]
      exact Nat.le_succ 1
    · rw [tokens_of_not_mem ht hnil, reverse_foldl_pushToken hk]
      by_cases hup : Up t
      · subst hup
        exact le_rfl
      · rw [kept, Cancel.reduce, List.foldl_cons, List.foldl_nil, Cancel.push_of_not_closes hup]
        exact le_rfl
  unfold parseLogicalPathnameDirectory
  split
  · exact hfold (fun hmem => h (List.mem_of_mem_tail hmem)) (by rintro _ ⟨⟩)
  · exact hfold h (by rintro _ ⟨⟩)

theorem componentText_spec (hc : c = .wildInferiors ∨ Printable c) :
    ∃ t, LogicalPathname.componentText prin1 c = .ok t ∧ t ≠ [] ∧ '/' ∉ t ∧ ';' ∉ t ∧
      ∀ k, pushToken [k] t = [c, k] := by
  rcases hc with rfl | hc
  · exact ⟨_, rfl, by decide, by decide, by decide, fun k => rfl⟩
  · refine ⟨_, ?_, nameText_ne_nil hc, not_mem_nameText hc (by decide) (by decide),
      not_mem_nameText hc (by decide) (by decide), fun k => ?_⟩
    · cases c with
      | string | wild => rfl
      | nil | absolute | relative | up | wildInferiors | other => exact hc.elim
    · cases c with
      | string w =>
        have hstar : '*' ∉ w := not_mem_of_word hc (by decide)
        have hdot : '.' ∉ w := not_mem_of_word hc (by decide)
        have hw : Ordinary w := by
          refine ⟨?_, ?_, ?_⟩ <;> rintro rfl
          · exact hstar (by decide)
          · exact hstar (by decide)
          · exact hdot (by decide)
        exact (pushToken_of_not_up hw.not_up).trans (by rw [componentOf_ordinary hw])
      | wild => rfl
      | nil | absolute | relative | up | wildInferiors | other => exact hc.elim

theorem componentsText_spec : ∀ {ds : List Value}, (∀ d ∈ ds, d = .wildInferiors ∨ Printable d) →
    ∃ t, LogicalPathname.componentsText prin1 ds = .ok t ∧ '/' ∉ t ∧
      (ds ≠ [] → ∃ l, t = l ++ [';'])
  | [], _ => ⟨[], rfl, List.not_mem_nil, fun h => absurd rfl h⟩
  | c :: ds, h => by
    obtain ⟨s, hs, -, hslash, -, -⟩ := componentText_spec prin1 (h c List.mem_cons_self)
    obtain ⟨t, ht, hslash', hlast⟩ := componentsText_spec fun d hd => h d (List.mem_cons_of_mem _ hd)
    refine ⟨s ++ ';' :: t, ?_, ?_, fun _ => ?_⟩
    · rw [LogicalPathname.componentsText, hs, ht]
      rfl
    · rw [List.mem_append, List.mem_cons, not_or, not_or]
      exact ⟨hslash, by decide, hslash'⟩
    · cases ds with
      | nil =>
        cases ht
        exact ⟨s, rfl⟩
      | cons d ds =>
        obtain ⟨l, rfl⟩ := hlast (List.cons_ne_nil d ds)
        exact ⟨s ++ ';' :: l, by simp⟩

/-- **The directory survives exactly with at most one component.** -/
theorem directoryNamestring_spec {directory : List Value}
    (h : directory = .absolute :: ds ∨ directory = .relative :: ds ∧ ds ≠ [])
    (hds : ∀ d ∈ ds, d = .wildInferiors ∨ Printable d) :
    ∃ t D, LogicalPathname.directoryNamestring prin1 directory = .ok t ∧
      (D = directory ↔ directory.length ≤ 2) ∧ ∀ host rest, ';' ∉ rest →
        LogicalPathname.ofText host (t ++ rest) =
          ⟨host, D, (parseName rest).1, (parseName rest).2.1, (parseName rest).2.2⟩ := by
  obtain ⟨t, ht, hslash, hlast⟩ := componentsText_spec prin1 hds
  -- the part of the text before the last semicolon, if there is one
  have hof : ∀ l host rest, ';' ∉ rest → LogicalPathname.ofText host (l ++ [';'] ++ rest) =
      ⟨host, parseLogicalPathnameDirectory l, (parseName rest).1, (parseName rest).2.1,
        (parseName rest).2.2⟩ := by
    intro l host rest hrest
    have hdrop := (take_drop_append ';' l rest).2
    rw [LogicalPathname.ofText, List.append_assoc, List.singleton_append, lastIndexOf_append hrest]
    simp only [List.take_left, hdrop]
  have hlong : ∀ l k, '/' ∉ l → parseLogicalPathnameDirectory l = k :: ds → ds.length ≤ 1 := by
    intro l k hl heq
    have := length_parse hl
    rw [heq, List.length_cons] at this
    omega
  match ds, hlast with
  | [], _ =>
    obtain rfl | ⟨-, hne⟩ := h
    · refine ⟨[], [.absolute], rfl, by simp, fun host rest hrest => ?_⟩
      rw [List.nil_append, LogicalPathname.ofText, lastIndexOf_of_not_mem hrest]
    · exact absurd rfl hne
  | [c], _ =>
    obtain ⟨s, hs, hnil, hslash, hsemi, hpush⟩ :=
      componentText_spec prin1 (hds c List.mem_cons_self)
    have hparse : parseLogicalPathnameDirectory s = [.absolute, c] := by
      have hhead : ¬(s.length > 1 ∧ s.head? = some ';') := fun h => by
        exact hsemi (List.mem_of_mem_head? h.2)
      rw [parseLogicalPathnameDirectory, if_neg hhead, tokens_of_not_mem hslash hnil,
        List.foldl_cons, hpush]
      rfl
    have hparse' : parseLogicalPathnameDirectory (';' :: s) = [.relative, c] := by
      have hlength : (';' :: s).length > 1 := Nat.succ_lt_succ (List.length_pos_iff.2 hnil)
      rw [parseLogicalPathnameDirectory, if_pos ⟨hlength, rfl⟩, List.tail_cons,
        tokens_of_not_mem hslash hnil, List.foldl_cons, hpush]
      rfl
    obtain rfl | ⟨rfl, -⟩ := h
    · refine ⟨s ++ [';'], _, ?_, by rw [hparse]; simp, hof s⟩
      rw [LogicalPathname.directoryNamestring, LogicalPathname.componentsText, hs]
      rfl
    · refine ⟨(';' :: s) ++ [';'], _, ?_, by rw [hparse']; simp, hof _⟩
      rw [LogicalPathname.directoryNamestring, LogicalPathname.componentsText, hs]
      rfl
  | c :: c' :: ds, hlast =>
    obtain ⟨l, rfl⟩ := hlast (List.cons_ne_nil _ _)
    have hl : '/' ∉ l := fun h => hslash (List.mem_append_left _ h)
    obtain rfl | ⟨rfl, -⟩ := h
    · refine ⟨l ++ [';'], _, ht, iff_of_false (fun h => ?_) (by simp), hof l⟩
      simpa using hlong l _ hl h
    · refine ⟨(';' :: l) ++ [';'], _, ?_, iff_of_false (fun h => ?_) (by simp), hof _⟩
      · rw [LogicalPathname.directoryNamestring, ht]
        rfl
      · have hl' : '/' ∉ ';' :: l := by
          rw [List.mem_cons, not_or]
          exact ⟨by decide, hl⟩
        simpa using hlong _ _ hl' h

end Directory

/-! ## What survives -/

theorem makeValue_ne_zero (cons : BitVec 64) : makeValue cons ≠ 0 := fun h => by
  have hbit := congrArg (·.getLsbD 0) h
  simp [makeValue] at hbit

theorem afterColon_append {s : Text} (h : ':' ∉ s) (rest : Text) :
    afterColon (s ++ ':' :: rest) = rest := by
  have hpos : ∀ c ∈ s, decide (c ≠ ':') = true := fun c hc =>
    decide_eq_true fun he => h (by rwa [← he])
  rw [afterColon, List.dropWhile_append_of_pos hpos, List.dropWhile_cons_of_neg (by decide)]
  rfl

section Survives

variable (prin1 : Value → Text) (digits : ℕ → Text) {p : LogicalPathname} (hp : p.Ordinary)

include hp

/-- **Without quotes, a logical pathname survives exactly** with at most one component and without
a number; with quotes none does. -/
theorem survives_iff (printEscape printReadably : BitVec 64) :
    Survives prin1 digits printEscape printReadably p ↔
      (printEscape = 0 ∧ printReadably = 0) ∧ p.directory.length ≤ 2 ∧
        ∀ n, p.version ≠ .integer n := by
  obtain ⟨ds, hdirectory, hds⟩ := hp.directory
  obtain ⟨t, D, ht, hD, hof⟩ := directoryNamestring_spec prin1 hdirectory hds
  set escape : Bool := printEscape != 0 || printReadably != 0 with hescape
  have hescape_iff : escape = false ↔ printEscape = 0 ∧ printReadably = 0 := by simp [hescape]
  set q : Text := if escape then ['"'] else [] with hq
  have hq_iff : q = [] ↔ escape = false := by
    rw [hq]
    cases escape <;> decide
  have hq_cases : q = [] ∨ q = ['"'] := by
    rw [hq]
    cases escape <;> decide
  set tail := Pathname.nameText p.name ++ Pathname.typeText p.type ++
    LogicalPathname.versionText digits p.version ++ q with htail
  have hwrite : p.writeToString prin1 digits printEscape printReadably =
      .ok ((if escape then ['#', 'P', '"'] else []) ++ p.host ++ ':' :: (t ++ tail)) := by
    rw [LogicalPathname.writeToString, ht, htail, hq, hescape]
    simp [bind, Except.bind, pure, Except.pure]
  have hcolon : afterColon ((if escape then ['#', 'P', '"'] else []) ++ p.host ++
      ':' :: (t ++ tail)) = t ++ tail := by
    refine afterColon_append (fun hmem => ?_) _
    rcases List.mem_append.1 hmem with hmem | hmem
    · revert hmem
      cases escape <;> decide
    · exact hp.host hmem
  have hsurvives : Survives prin1 digits printEscape printReadably p ↔
      let r := LogicalPathname.ofText p.host (t ++ tail)
      r.directory = p.directory ∧ r.name = p.name ∧ r.type = p.type ∧ r.version = p.version := by
    rw [Survives, hwrite]
    constructor
    · rintro ⟨s, hs, h⟩
      cases hs
      rwa [hcolon] at h
    · exact fun h => ⟨_, rfl, by rwa [hcolon]⟩
  rw [hsurvives]
  by_cases hint : ∀ n, p.version ≠ .integer n
  · have hsemi : ';' ∉ tail := by
      have hname := not_mem_nameText hp.name (c := ';') (by decide) (by decide)
      have htype : ';' ∉ Pathname.typeText p.type := by
        rcases hp.type with hnil | htype
        · rw [hnil]
          decide
        · have := not_mem_nameText htype (c := ';') (by decide) (by decide)
          rw [Pathname.typeText]
          split <;> simp [this]
      have hversion : ';' ∉ LogicalPathname.versionText digits p.version := by
        cases hv : p.version with
        | integer n => exact absurd hv (hint n)
        | nil | newest | wild => rw [LogicalPathname.versionText]; decide
      have hquote : ';' ∉ q := by rcases hq_cases with h | h <;> rw [h] <;> decide
      simp only [htail, List.mem_append, not_or]
      exact ⟨⟨⟨hname, htype⟩, hversion⟩, hquote⟩
    have hparse := parseName_iff digits hp.name hp.type hp.version hint hq_cases
    rw [hq_iff, hescape_iff, Prod.ext_iff, Prod.ext_iff] at hparse
    rw [hof p.host tail hsemi, and_iff_left hint, ← hD, ← hparse, and_comm]
  · refine iff_of_false (fun h => ?_) fun h => hint h.2.2
    obtain ⟨n, hn⟩ := not_forall_not.1 hint
    rw [hn] at h
    exact parseName_ne_integer _ n h.2.2.2

/-- **No logical pathname survives** with `*PRINT-ESCAPE*` `NIL`, as `NIL` is not the word 0. -/
theorem not_survives (cons printReadably : BitVec 64) :
    ¬Survives prin1 digits (makeValue cons) printReadably p ∧
      (Survives prin1 digits 0 0 p ↔
        p.directory.length ≤ 2 ∧ ∀ n, p.version ≠ .integer n) := by
  refine ⟨fun h => ?_, ?_⟩
  · exact makeValue_ne_zero cons ((survives_iff prin1 digits hp _ _).1 h).1.1
  · rw [survives_iff prin1 digits hp, and_iff_right ⟨rfl, rfl⟩]

end Survives

theorem not_survives_name : ¬Survives (fun _ => []) (fun _ => []) (makeValue 16) (makeValue 16)
      ⟨['H'], [.absolute, .string ['A']], .string ['N'], .nil, .nil⟩ ∧
    (Survives (fun _ => []) (fun _ => []) 0 0
        ⟨['H'], [.absolute, .string ['A']], .string ['N'], .nil, .nil⟩ ↔
      2 ≤ 2 ∧ ∀ n, Version.nil ≠ .integer n) := by
  have hword : ∀ c, isWordChar c = true → Word [c] := fun c hc =>
    ⟨List.cons_ne_nil _ _, fun d hd => by rwa [List.mem_singleton.1 hd]⟩
  have hordinary : LogicalPathname.Ordinary
      ⟨['H'], [.absolute, .string ['A']], .string ['N'], .nil, .nil⟩ := by
    refine ⟨by decide, ⟨[.string ['A']], Or.inl rfl, fun d hd => ?_⟩, hword 'N' (by decide),
      Or.inl rfl, fun h => absurd rfl h⟩
    rw [List.mem_singleton.1 hd]
    exact Or.inr (hword 'A' (by decide))
  exact not_survives _ _ hordinary 16 (makeValue 16)

/-- `H:A;N` is printed with quotes, so that the name that is read ends in one. -/
theorem not_survives_quoted : LogicalPathname.writeToString (fun _ => []) (fun _ => [])
      (makeValue 16) (makeValue 16) ⟨['H'], [.absolute, .string ['A']], .string ['N'], .nil, .nil⟩ =
        .ok ['#', 'P', '"', 'H', ':', 'A', ';', 'N', '"'] ∧
    ¬Survives (fun _ => []) (fun _ => []) (makeValue 16) (makeValue 16)
      ⟨['H'], [.absolute, .string ['A']], .string ['N'], .nil, .nil⟩ := by
  refine ⟨rfl, ?_⟩
  rintro ⟨s, hs, -, hname, -⟩
  obtain rfl : ['#', 'P', '"', 'H', ':', 'A', ';', 'N', '"'] = s := Except.ok.inj hs
  exact absurd hname (by decide)

end Xcl.LogicalPathnames
