import Xcl.Pathname.Match

/-!
# Translating directories

`translate-pathname.lisp`: the wildcards of a directory are replaced by chunks of another one. That
one has no wildcards, so it is a single chunk.

* **`translated_iff`**: exactly which directories are translated as they should be.
-/

namespace Xcl.Directories

/-! ## The functions -/

/-- The `case` argument, where it is not `NIL`. -/
inductive Case
  | upcase
  | downcase
deriving DecidableEq, Repr

/-- What `split-directory-components` collects. -/
inductive Chunk
  | key (c : Component)
  | sublist (components : List Component)
deriving DecidableEq, Repr

/-- The errors of `translate-directory`; the last is the one of `append`. -/
inductive TranslateError
  | illFormedDirectoryList (directory : List Component)
  | unsupportedCase1 (source fromChunks toChunks : List Chunk)
  | notList (c : Component)
deriving DecidableEq, Repr

/-- `casify`, of a component -/
def Component.casify (c : Component) (case : Option Case) : Component :=
  match c, case with
  | .string s, some .upcase => .string (s.map Char.toUpper)
  | .string s, some .downcase => .string (s.map Char.toLower)
  | c, _ => c

/-- `(memq component '(:wild :wild-inferiors))` -/
def Component.IsWildcard : Component → Prop
  | .wild | .wildInferiors => True
  | _ => False

instance : DecidablePred Component.IsWildcard
  | .wild | .wildInferiors => instDecidableTrue
  | .absolute | .relative | .string _ | .up | .back => instDecidableFalse

/-- `(when sublist (push (nreverse sublist) result))` -/
def pushSublist (result : List Chunk) (sublist : List Component) : List Chunk :=
  if sublist ≠ [] then .sublist sublist.reverse :: result else result

/-- The loop of `split-directory-components`. -/
def splitLoop (result : List Chunk) (sublist : List Component) : List Component → List Chunk
  | [] => (pushSublist result sublist).reverse
  | component :: rest =>
    if component.IsWildcard then splitLoop (.key component :: pushSublist result sublist) [] rest
    else splitLoop result (component :: sublist) rest

def splitDirectoryComponents : List Component → Except TranslateError (List Chunk)
  | [] => .error (.illFormedDirectoryList [])
  | head :: rest =>
    if head = .absolute ∨ head = .relative then .ok (splitLoop [.key head] [] rest)
    else .error (.illFormedDirectoryList (head :: rest))

/-- `(append (casify chunk case) rest)`; there may be no chunk left. -/
def appendChunk (chunk : Option Chunk) (case : Option Case) (rest : List Component) :
    Except TranslateError (List Component) :=
  match chunk with
  | none => .ok rest
  | some (.sublist components) => .ok (components.map (·.casify case) ++ rest)
  | some (.key c) => .error (.notList c)

def translateDirectoryComponents (case : Option Case) (source fromChunks : List Chunk) :
    List Chunk → Except TranslateError (List Component)
  | [] => .ok []
  | .key .absolute :: toChunks => do
    return .absolute :: (← translateDirectoryComponents case source.tail fromChunks.tail toChunks)
  | .key .relative :: toChunks => do
    return .relative :: (← translateDirectoryComponents case source.tail fromChunks.tail toChunks)
  | .key .wild :: toChunks =>
    if fromChunks.head? = some (.key .wild) then do
      appendChunk source.head? case
        (← translateDirectoryComponents case source.tail fromChunks.tail toChunks)
    else .error (.unsupportedCase1 source fromChunks (.key .wild :: toChunks))
  | .key .wildInferiors :: toChunks => do
    appendChunk source.head? case
      (← translateDirectoryComponents case source.tail fromChunks.tail toChunks)
  | chunk :: toChunks => do
    appendChunk (some chunk) case (← translateDirectoryComponents case source fromChunks toChunks)

/-- `translate-directory`, of lists -/
def translateDirectory (source fromWildcard toWildcard : List Component) (case : Option Case) :
    Except TranslateError (List Component) :=
  if source = [] then .ok toWildcard
  else if source = [.absolute] then .ok (toWildcard.filter (· ≠ .wildInferiors))
  else do
    translateDirectoryComponents case (← splitDirectoryComponents source)
      (← splitDirectoryComponents fromWildcard) (← splitDirectoryComponents toWildcard)

/-! ## What it should do -/

/-- Whatever the wildcards matched stands in the result for the wildcards of `to`. -/
def Translated (source fromWildcard toWildcard : List Component) : Prop :=
  ∀ portions, Replaced fromWildcard portions source →
    ∃ result, translateDirectory source fromWildcard toWildcard none = .ok result ∧
      Replaced toWildcard portions result

/-! ## Replacing wildcards -/

variable {portions : List (List Component)} {c : Component}
  {before rest result s f g sub : List Component} {fromChunks toChunks : List Chunk}

/-- A directory without its wildcards. -/
def literals (g : List Component) : List Component := g.filter (¬·.IsWildcard)

theorem replaced_cons_iff (hc : ¬c.IsWildcard) :
    Replaced (c :: rest) portions result ↔
      ∃ tail, result = c :: tail ∧ Replaced rest portions tail := by
  constructor
  · rintro (_ | ⟨-, -, h⟩ | _ | _)
    · exact ⟨_, rfl, h⟩
    · exact absurd trivial hc
    · exact absurd trivial hc
  · rintro ⟨tail, rfl, h⟩
    refine .literal ?_ ?_ h
    · rintro rfl
      exact hc trivial
    · rintro rfl
      exact hc trivial

theorem replaced_append_iff (hbefore : ∀ c ∈ before, ¬c.IsWildcard) :
    Replaced (before ++ rest) portions result ↔
      ∃ tail, result = before ++ tail ∧ Replaced rest portions tail := by
  induction before generalizing result with
  | nil => simp
  | cons c before ih =>
    obtain ⟨hc, hbefore⟩ := List.forall_mem_cons.mp hbefore
    rw [List.cons_append, replaced_cons_iff hc]
    constructor
    · rintro ⟨tail, rfl, h⟩
      obtain ⟨tail, rfl, htail⟩ := (ih hbefore).mp h
      exact ⟨tail, rfl, htail⟩
    · rintro ⟨tail, rfl, htail⟩
      exact ⟨before ++ tail, rfl, (ih hbefore).mpr ⟨tail, rfl, htail⟩⟩

theorem replaced_literals_iff (hg : ∀ c ∈ g, ¬c.IsWildcard) :
    Replaced g portions result ↔ portions = [] ∧ result = g := by
  have happend : Replaced (g ++ []) portions result ↔ _ := replaced_append_iff hg
  rw [List.append_nil] at happend
  rw [happend]
  constructor
  · rintro ⟨tail, rfl, ⟨⟩⟩
    exact ⟨rfl, List.append_nil g⟩
  · rintro ⟨rfl, rfl⟩
    exact ⟨[], (List.append_nil _).symm, .nil⟩

theorem replaced_inferiors_iff (hrest : ∀ c ∈ rest, ¬c.IsWildcard) :
    Replaced (.wildInferiors :: rest) portions result ↔
      ∃ portion, portions = [portion] ∧ result = portion ++ rest := by
  constructor
  · rintro (_ | ⟨-, hne, -⟩ | _ | ⟨portion, h⟩)
    · exact absurd rfl hne
    · obtain ⟨rfl, rfl⟩ := (replaced_literals_iff hrest).mp h
      exact ⟨portion, rfl, rfl⟩
  · rintro ⟨portion, rfl, rfl⟩
    exact .inferiors portion ((replaced_literals_iff hrest).mpr ⟨rfl, rfl⟩)

theorem replaced_wild_iff :
    Replaced (.wild :: rest) portions result ↔
      ∃ c portions' tail, portions = [c] :: portions' ∧ result = c :: tail ∧
        Replaced rest portions' tail := by
  constructor
  · rintro (_ | ⟨hne, -, -⟩ | ⟨c, h⟩ | _)
    · exact absurd rfl hne
    · exact ⟨c, _, _, rfl, rfl, h⟩
  · rintro ⟨c, portions', tail, rfl, rfl, h⟩
    exact .wild c h

theorem replaced_wilds_iff (hf : ∀ c ∈ f, c = .wild) :
    Replaced f portions s ↔ portions = s.map ([·]) ∧ s.length = f.length := by
  induction f generalizing portions s with
  | nil =>
    constructor
    · rintro ⟨⟩
      exact ⟨rfl, rfl⟩
    · rintro ⟨rfl, hlength⟩
      obtain rfl := List.length_eq_zero_iff.mp hlength
      exact .nil
  | cons c f ih =>
    obtain ⟨rfl, hrest⟩ := List.forall_mem_cons.mp hf
    rw [replaced_wild_iff]
    constructor
    · rintro ⟨c, portions', tail, rfl, rfl, h⟩
      obtain ⟨rfl, hlength⟩ := (ih hrest).mp h
      exact ⟨rfl, congrArg (· + 1) hlength⟩
    · rintro ⟨rfl, hlength⟩
      match s with
      | x :: s => exact ⟨x, _, s, rfl, rfl, (ih hrest).mpr ⟨rfl, Nat.succ.inj hlength⟩⟩

/-- Without a `:WILD-INFERIORS` nothing becomes longer or shorter. -/
theorem Replaced.length_eq (h : Replaced g portions result)
    (hg : .wildInferiors ∉ g) : result.length = g.length := by
  induction h with
  | nil => rfl
  | literal hwild hinferiors h ih => exact congrArg (· + 1) (ih (List.not_mem_of_not_mem_cons hg))
  | wild c h ih => exact congrArg (· + 1) (ih (List.not_mem_of_not_mem_cons hg))
  | inferiors portion h => exact absurd List.mem_cons_self hg

/-! ## What the functions compute -/

def block (sub : List Component) : List Chunk := if sub = [] then [] else [.sublist sub]

/-- The chunks of a directory behind some components. -/
def pieces (sub : List Component) : List Component → List Chunk
  | [] => block sub
  | c :: rest =>
    if c.IsWildcard then block sub ++ .key c :: pieces [] rest else pieces (sub ++ [c]) rest

/-- The whole source takes the place of the first wildcard. -/
def fill : List Component → List Component → List Component
  | _, [] => []
  | s, c :: g => if c.IsWildcard then s ++ fill [] g else c :: fill s g

/-- The chunks have a `:WILD` at the place of each `:WILD`. -/
def Supplies : List Chunk → List Component → Prop
  | _, [] => True
  | fromChunks, .wild :: g =>
    fromChunks.head? = some (.key .wild) ∧ Supplies fromChunks.tail g
  | fromChunks, .wildInferiors :: g => Supplies fromChunks.tail g
  | fromChunks, _ :: g => Supplies fromChunks g

theorem reverse_pushSublist (result : List Chunk) :
    (pushSublist result sub).reverse = result.reverse ++ block sub.reverse := by
  by_cases h : sub = [] <;> simp [pushSublist, block, h]

theorem splitLoop_eq (result : List Chunk) (g : List Component) :
    splitLoop result sub g = result.reverse ++ pieces sub.reverse g := by
  induction g generalizing result sub with
  | nil => exact reverse_pushSublist result
  | cons c g ih =>
    by_cases hc : c.IsWildcard
    · rw [splitLoop, pieces, if_pos hc, if_pos hc, ih, List.reverse_cons, reverse_pushSublist]
      simp
    · rw [splitLoop, pieces, if_neg hc, if_neg hc, ih, List.reverse_cons]

theorem splitDirectoryComponents_eq (hc : c = .absolute ∨ c = .relative) :
    splitDirectoryComponents (c :: g) = .ok (.key c :: pieces [] g) := by
  rw [splitDirectoryComponents, if_pos hc, splitLoop_eq]
  rfl

theorem pieces_of_literals (hg : ∀ c ∈ g, ¬c.IsWildcard) : pieces sub g = block (sub ++ g) := by
  induction g generalizing sub with
  | nil => rw [pieces, List.append_nil]
  | cons c g ih =>
    obtain ⟨hc, hg⟩ := List.forall_mem_cons.mp hg
    rw [pieces, if_neg hc, ih hg, List.append_assoc, List.singleton_append]

theorem map_casify_none (l : List Component) : l.map (·.casify none) = l := by
  have hnone : ∀ c : Component, c.casify none = c := by
    intro c
    cases c <;> rfl
  simp [hnone]

theorem appendChunk_head?_block : appendChunk (block s).head? none rest = .ok (s ++ rest) := by
  by_cases h : s = []
  · rw [h]
    rfl
  · rw [block, if_neg h, List.head?_cons, appendChunk, map_casify_none]

theorem tail_block : (block s).tail = block [] := by
  by_cases h : s = [] <;> simp [block, h]

theorem translate_sublist {source : List Chunk} :
    translateDirectoryComponents none source fromChunks (.sublist sub :: toChunks) =
      (sub ++ ·) <$> translateDirectoryComponents none source fromChunks toChunks := by
  rw [translateDirectoryComponents]
  · cases translateDirectoryComponents none source fromChunks toChunks with
    | error e => rfl
    | ok rest =>
      have happend : appendChunk (some (.sublist sub)) none rest = .ok (sub ++ rest) := by
        rw [appendChunk, map_casify_none]
      exact happend
  all_goals nofun

theorem translate_block {source : List Chunk} :
    translateDirectoryComponents none source fromChunks (block sub ++ toChunks) =
      (sub ++ ·) <$> translateDirectoryComponents none source fromChunks toChunks := by
  by_cases h : sub = []
  · simp [block, h]
  · rw [block, if_neg h, List.singleton_append, translate_sublist]

theorem translate_inferiors :
    translateDirectoryComponents none (block s) fromChunks (.key .wildInferiors :: toChunks) =
      (s ++ ·) <$> translateDirectoryComponents none (block []) fromChunks.tail toChunks := by
  rw [translateDirectoryComponents, tail_block]
  cases translateDirectoryComponents none (block []) fromChunks.tail toChunks with
  | error e => rfl
  | ok rest => exact appendChunk_head?_block

theorem translate_wild (hfrom : fromChunks.head? = some (.key .wild)) :
    translateDirectoryComponents none (block s) fromChunks (.key .wild :: toChunks) =
      (s ++ ·) <$> translateDirectoryComponents none (block []) fromChunks.tail toChunks := by
  rw [translateDirectoryComponents, if_pos hfrom, tail_block]
  cases translateDirectoryComponents none (block []) fromChunks.tail toChunks with
  | error e => rfl
  | ok rest => exact appendChunk_head?_block

theorem map_eq_ok_iff {α β ε : Type} {h : α → β} {x : Except ε α} {p : Prop} {z : α} {y : β}
    (hx : ∀ a, x = .ok a ↔ p ∧ a = z) : h <$> x = .ok y ↔ p ∧ y = h z := by
  cases x with
  | error e =>
    refine iff_of_false nofun ?_
    rintro ⟨hp, -⟩
    cases (hx z).mpr ⟨hp, rfl⟩
  | ok a =>
    obtain ⟨hp, rfl⟩ := (hx a).mp rfl
    rw [and_iff_right hp]
    constructor
    · rintro ⟨⟩
      rfl
    · rintro rfl
      rfl

theorem supplies_of_literal (hc : ¬c.IsWildcard) :
    Supplies fromChunks (c :: g) ↔ Supplies fromChunks g := by
  cases c with
  | wild => exact absurd trivial hc
  | wildInferiors => exact absurd trivial hc
  | _ => exact Iff.rfl

/-- **What is computed**: the source in the place of the first wildcard, nothing in the place of
another. -/
theorem translate_pieces :
    translateDirectoryComponents none (block s) fromChunks (pieces sub g) = .ok result ↔
      Supplies fromChunks g ∧ result = sub ++ fill s g := by
  induction g generalizing s fromChunks sub result with
  | nil =>
    have hblock : translateDirectoryComponents none (block s) fromChunks (block sub ++ []) = _ :=
      translate_block
    rw [List.append_nil] at hblock
    rw [pieces, hblock]
    refine map_eq_ok_iff fun a => ?_
    simp [translateDirectoryComponents, Supplies, fill, eq_comm]
  | cons c g ih =>
    by_cases hc : c.IsWildcard
    · rw [pieces, if_pos hc, translate_block, fill, if_pos hc]
      refine map_eq_ok_iff fun a => ?_
      cases c with
      | wildInferiors =>
        rw [translate_inferiors]
        exact map_eq_ok_iff fun a => ih
      | wild =>
        by_cases hfrom : fromChunks.head? = some (.key .wild)
        · rw [translate_wild hfrom, Supplies, and_iff_right hfrom]
          exact map_eq_ok_iff fun a => ih
        · refine iff_of_false ?_ fun h => hfrom h.1.1
          rw [translateDirectoryComponents, if_neg hfrom]
          nofun
      | absolute | relative | string | up | back => exact hc.elim
    · rw [pieces, if_neg hc, ih, supplies_of_literal hc, fill, if_neg hc, List.append_assoc,
        List.singleton_append]

theorem fill_nil : fill [] g = literals g := by
  induction g with
  | nil => rfl
  | cons c g ih =>
    by_cases hc : c.IsWildcard
    · rw [fill, if_pos hc, ih, literals, literals, List.filter_cons_of_neg (by simpa using hc)]
      rfl
    · rw [fill, if_neg hc, ih, literals, literals, List.filter_cons_of_pos (by simpa using hc)]

theorem fill_append (hbefore : ∀ c ∈ before, ¬c.IsWildcard) (hc : c.IsWildcard) :
    fill s (before ++ c :: rest) = before ++ (s ++ literals rest) := by
  induction before with
  | nil => rw [List.nil_append, fill, if_pos hc, fill_nil, List.nil_append]
  | cons x before ih =>
    obtain ⟨hx, hbefore⟩ := List.forall_mem_cons.mp hbefore
    rw [List.cons_append, fill, if_neg hx, ih hbefore, List.cons_append]

theorem supplies_of_notMem (hg : .wild ∉ g) : Supplies fromChunks g := by
  induction g generalizing fromChunks with
  | nil => trivial
  | cons c g ih =>
    have hrest := List.not_mem_of_not_mem_cons hg
    cases c with
    | wild => exact absurd List.mem_cons_self hg
    | _ => exact ih hrest

theorem translateDirectory_eq_ok_iff (hhead : c = .absolute ∨ c = .relative)
    (hs : ∀ c ∈ s, ¬c.IsWildcard) (hg : s = [] → .wild ∉ g) :
    translateDirectory (.absolute :: s) (.absolute :: f) (c :: g) none = .ok result ↔
      Supplies (pieces [] f) g ∧ result = c :: fill s g := by
  rw [translateDirectory, if_neg (List.cons_ne_nil _ _)]
  by_cases hnil : s = []
  · subst hnil
    have hfilter : (c :: g).filter (· ≠ .wildInferiors) = c :: literals g := by
      have hrest : g.filter (· ≠ .wildInferiors) = literals g := by
        refine List.filter_congr fun x hx => decide_eq_decide.mpr ?_
        cases x with
        | wild => exact absurd hx (hg rfl)
        | wildInferiors => exact iff_of_false (fun h => h rfl) fun h => h trivial
        | _ => exact iff_of_true nofun fun h => h
      obtain rfl | rfl := hhead
      · rw [List.filter_cons_of_pos (by decide), hrest]
      · rw [List.filter_cons_of_pos (by decide), hrest]
    rw [if_pos rfl, hfilter, fill_nil, and_iff_right (supplies_of_notMem (hg rfl))]
    exact ⟨fun h => (Except.ok.inj h).symm, fun h => h ▸ rfl⟩
  · have hsource : splitDirectoryComponents (.absolute :: s) = .ok (.key .absolute :: block s) := by
      rw [splitDirectoryComponents_eq (.inl rfl), pieces_of_literals hs, List.nil_append]
    have hloop : translateDirectoryComponents none (.key .absolute :: block s)
        (.key .absolute :: pieces [] f) (.key c :: pieces [] g) =
          (c :: ·) <$> translateDirectoryComponents none (block s) (pieces [] f) (pieces [] g) := by
      obtain rfl | rfl := hhead
      · rw [translateDirectoryComponents]
        rfl
      · rw [translateDirectoryComponents]
        rfl
    have hcons : .absolute :: s ≠ [.absolute] := fun h => hnil (List.cons.inj h).2
    rw [if_neg hcons, hsource, splitDirectoryComponents_eq (.inl rfl),
      splitDirectoryComponents_eq hhead]
    change translateDirectoryComponents none (.key .absolute :: block s)
      (.key .absolute :: pieces [] f) (.key c :: pieces [] g) = .ok result ↔ _
    rw [hloop]
    exact map_eq_ok_iff fun a => translate_pieces

/-! ## The theorem -/

/-- The wildcards of a directory. -/
def wildcards (g : List Component) : List Component := g.filter (·.IsWildcard)

theorem pieces_of_wildcards (hf : ∀ c ∈ f, c.IsWildcard) : pieces [] f = f.map .key := by
  induction f with
  | nil => rfl
  | cons c f ih =>
    obtain ⟨hc, hf⟩ := List.forall_mem_cons.mp hf
    rw [pieces, if_pos hc, ih hf]
    rfl

theorem supplies_wildcards : Supplies ((wildcards g).map .key) g := by
  induction g with
  | nil => trivial
  | cons c g ih =>
    cases c with
    | wild => exact ⟨rfl, ih⟩
    | _ => exact ih

theorem length_literals_add (g : List Component) :
    (literals g).length + (wildcards g).length = g.length := by
  induction g with
  | nil => rfl
  | cons c g ih =>
    cases c with
    | wild | wildInferiors => exact congrArg (· + 1) ih
    | absolute | relative | string | up | back =>
      exact (Nat.add_right_comm _ _ _).trans (congrArg (· + 1) ih)

/-- `from` has nothing but wildcards, and behind the first `:WILD` of `to` it makes no difference
whether the components of the source stand before the other components or for the `:WILD`s. -/
structure Straight (s f g : List Component) : Prop where
  wildcards : ∀ c ∈ f, c.IsWildcard
  inPlace : ∀ before rest, g = before ++ .wild :: rest → (∀ c ∈ before, ¬c.IsWildcard) →
    Replaced rest (s.tail.map ([·])) (s.tail ++ literals rest)

variable {head : Component}

theorem translated_iff_fill (hhead : head = .absolute ∨ head = .relative)
    (hs : ∀ c ∈ s, ¬c.IsWildcard) (hg : s = [] → .wild ∉ g) :
    Translated (.absolute :: s) (.absolute :: f) (head :: g) ↔
      ∀ portions, Replaced f portions s →
        Supplies (pieces [] f) g ∧ Replaced g portions (fill s g) := by
  have hhead' : ¬head.IsWildcard := by
    obtain rfl | rfl := hhead
    · exact id
    · exact id
  have hcons : ∀ portions, Replaced (.absolute :: f) portions (.absolute :: s) ↔
      Replaced f portions s := by
    intro portions
    rw [replaced_cons_iff (c := .absolute) id]
    constructor
    · rintro ⟨tail, ⟨⟩, h⟩
      exact h
    · intro h
      exact ⟨s, rfl, h⟩
  refine forall_congr' fun portions => imp_congr (hcons portions) ?_
  simp only [translateDirectory_eq_ok_iff hhead hs hg]
  constructor
  · rintro ⟨result, ⟨hsupplies, rfl⟩, h⟩
    obtain ⟨tail, heq, htail⟩ := (replaced_cons_iff hhead').mp h
    cases heq
    exact ⟨hsupplies, htail⟩
  · rintro ⟨hsupplies, h⟩
    exact ⟨_, ⟨hsupplies, rfl⟩, (replaced_cons_iff hhead').mpr ⟨_, rfl, h⟩⟩

theorem exists_of_wildcards_eq_cons {ws : List Component} (h : wildcards g = c :: ws) :
    ∃ before rest, g = before ++ c :: rest ∧ (∀ x ∈ before, ¬x.IsWildcard) ∧ c.IsWildcard ∧
      wildcards rest = ws := by
  obtain ⟨before, rest, rfl, hbefore, hc, hrest⟩ := List.filter_eq_cons_iff.mp h
  exact ⟨before, rest, rfl, by simpa using hbefore, by simpa using hc, hrest⟩

theorem literals_of_wildcards_eq_nil (h : wildcards g = []) : ∀ c ∈ g, ¬c.IsWildcard := by
  simpa [wildcards] using h

theorem literals_eq_self (hg : ∀ c ∈ g, ¬c.IsWildcard) : literals g = g :=
  List.filter_eq_self.mpr (by simpa using hg)

theorem mem_wildcards_iff (hc : c.IsWildcard) : c ∈ wildcards g ↔ c ∈ g := by
  simp [wildcards, hc]

/-- With one `:WILD-INFERIORS` the whole source has to stand for it. -/
theorem translated_inferiors_iff (hhead : head = .absolute ∨ head = .relative)
    (hs : ∀ c ∈ s, ¬c.IsWildcard) (hf : wildcards f = [.wildInferiors])
    (hg : wildcards g = [.wildInferiors]) (hmatch : ∃ portions, Replaced f portions s) :
    Translated (.absolute :: s) (.absolute :: f) (head :: g) ↔ Straight s f g := by
  have hwild : .wild ∉ g := by
    rw [← mem_wildcards_iff (c := .wild) trivial, hg]
    decide
  rw [translated_iff_fill hhead hs fun _ => hwild]
  obtain ⟨before, rest, rfl, hbefore, -, hrest⟩ := exists_of_wildcards_eq_cons hf
  obtain ⟨before', rest', rfl, hbefore', -, hrest'⟩ := exists_of_wildcards_eq_cons hg
  have hrest := literals_of_wildcards_eq_nil hrest
  have hrest' := literals_of_wildcards_eq_nil hrest'
  have hfrom : ∀ portions, Replaced (before ++ .wildInferiors :: rest) portions s ↔
      ∃ portion, portions = [portion] ∧ s = before ++ (portion ++ rest) := by
    intro portions
    simp only [replaced_append_iff hbefore, replaced_inferiors_iff hrest]
    constructor
    · rintro ⟨tail, rfl, portion, rfl, rfl⟩
      exact ⟨portion, rfl, rfl⟩
    · rintro ⟨portion, rfl, rfl⟩
      exact ⟨_, rfl, portion, rfl, rfl⟩
  have hto : ∀ portion, Replaced (before' ++ .wildInferiors :: rest') [portion]
      (fill s (before' ++ .wildInferiors :: rest')) ↔ s = portion := by
    intro portion
    rw [fill_append (c := .wildInferiors) hbefore' trivial, literals_eq_self hrest',
      replaced_append_iff hbefore']
    simp only [replaced_inferiors_iff hrest', List.append_cancel_left_eq]
    constructor
    · rintro ⟨tail, rfl, portion, ⟨⟩, h⟩
      exact List.append_cancel_right h
    · rintro rfl
      exact ⟨_, rfl, s, rfl, rfl⟩
  obtain ⟨portions, hmatch⟩ := hmatch
  obtain ⟨portion, rfl, hportion⟩ := (hfrom _).mp hmatch
  constructor
  · intro h
    have hlength := congrArg List.length ((hto portion).mp (h _ hmatch).2)
    rw [hportion, List.length_append, List.length_append] at hlength
    obtain rfl : before = [] := List.length_eq_zero_iff.mp (by omega)
    obtain rfl : rest = [] := List.length_eq_zero_iff.mp (by omega)
    refine ⟨by simp [Component.IsWildcard], fun before rest heq => ?_⟩
    exact absurd (heq ▸ by simp) hwild
  · intro h portions hportions
    obtain ⟨portion, rfl, hportion⟩ := (hfrom _).mp hportions
    obtain rfl : before = [] := List.eq_nil_iff_forall_not_mem.mpr fun c hc =>
      hbefore c hc (h.wildcards c (by simp [hc]))
    obtain rfl : rest = [] := List.eq_nil_iff_forall_not_mem.mpr fun c hc =>
      hrest c hc (h.wildcards c (by simp [hc]))
    rw [List.nil_append, List.append_nil] at hportion
    exact ⟨supplies_of_notMem hwild, (hto portion).mpr hportion⟩

/-- With nothing but `:WILD`s the first of `to` takes the whole source. -/
theorem translated_wild_iff (hhead : head = .absolute ∨ head = .relative)
    (hs : ∀ c ∈ s, ¬c.IsWildcard) (hne : wildcards f ≠ []) (hf : ∀ c ∈ wildcards f, c = .wild)
    (hg : wildcards g = wildcards f) (hmatch : ∃ portions, Replaced f portions s) :
    Translated (.absolute :: s) (.absolute :: f) (head :: g) ↔ Straight s f g := by
  have hinferiors : .wildInferiors ∉ f := by
    rw [← mem_wildcards_iff (c := .wildInferiors) trivial]
    intro h
    cases hf _ h
  have hinferiors' : .wildInferiors ∉ g := by
    rw [← mem_wildcards_iff (c := .wildInferiors) trivial, hg]
    intro h
    cases hf _ h
  have hlength : ∀ portions, Replaced f portions s → s.length = f.length :=
    fun portions h => h.length_eq hinferiors
  have hcons : wildcards g = .wild :: (wildcards f).tail := by
    rw [hg, ← List.cons_head_tail hne, hf _ (List.head_mem hne), List.tail_cons]
  have hpos : 0 < (wildcards f).length := List.length_pos_iff.mpr hne
  have hf_length := length_literals_add f
  obtain ⟨portions, hmatch⟩ := hmatch
  have hs_length := hlength portions hmatch
  have hs_ne : s ≠ [] := by
    rintro rfl
    simp only [List.length_nil] at hs_length
    omega
  rw [translated_iff_fill hhead hs fun h => absurd h hs_ne]
  constructor
  · intro h
    obtain ⟨-, hreplaced⟩ := h portions hmatch
    have hall : ∀ c ∈ f, c.IsWildcard := by
      obtain ⟨before, rest, rfl, hbefore, hc, hrest⟩ :=
        exists_of_wildcards_eq_cons hcons
      have hfill := hreplaced.length_eq hinferiors'
      rw [fill_append hbefore hc] at hfill
      have hrest_length := length_literals_add rest
      rw [hrest] at hrest_length
      simp only [List.length_append, List.length_cons, List.length_tail] at hfill hrest_length
      have hfilter : (wildcards f).length = f.length := by omega
      simpa [wildcards, List.length_filter_eq_length_iff] using hfilter
    have hwild : ∀ c ∈ f, c = .wild := fun c hc => hf c ((mem_wildcards_iff (hall c hc)).mpr hc)
    refine ⟨hall, ?_⟩
    rintro before rest rfl hbefore
    obtain ⟨rfl, -⟩ := (replaced_wilds_iff hwild).mp hmatch
    rw [fill_append (c := .wild) hbefore trivial, replaced_append_iff hbefore] at hreplaced
    obtain ⟨tail, htail, hreplaced⟩ := hreplaced
    obtain ⟨c, portions', tail, hportions, rfl, hreplaced⟩ := replaced_wild_iff.mp hreplaced
    match s with
    | x :: s =>
      cases hportions
      obtain ⟨-, rfl⟩ := List.cons.inj (List.append_cancel_left htail)
      exact hreplaced
  · intro h portions hportions
    have hwild : ∀ c ∈ f, c = .wild :=
      fun c hc => hf c ((mem_wildcards_iff (h.wildcards c hc)).mpr hc)
    have hself : wildcards f = f := List.filter_eq_self.mpr (by simpa using h.wildcards)
    obtain ⟨rfl, -⟩ := (replaced_wilds_iff hwild).mp hportions
    constructor
    · rw [pieces_of_wildcards h.wildcards, ← hself, ← hg]
      exact supplies_wildcards
    · obtain ⟨before, rest, rfl, hbefore, hc, -⟩ :=
        exists_of_wildcards_eq_cons hcons
      rw [fill_append hbefore hc, replaced_append_iff hbefore]
      refine ⟨_, rfl, ?_⟩
      match s with
      | x :: s => exact .wild x (h.inPlace before rest rfl hbefore)

/-- **What is translated as it should be**: the directories for which the whole source, in the place
of the first wildcard, is right. -/
theorem translated_iff (s f g : List Component) (head : Component)
    (hhead : head = .absolute ∨ head = .relative) (hs : ∀ c ∈ s, ¬c.IsWildcard)
    (hf : wildcards f = [.wildInferiors] ∨
      (wildcards f ≠ [] ∧ ∀ c ∈ wildcards f, c = .wild))
    (hg : wildcards g = wildcards f)
    (hmatch : ∃ portions, Replaced (.absolute :: f) portions (.absolute :: s)) :
    Translated (.absolute :: s) (.absolute :: f) (head :: g) ↔ Straight s f g := by
  have hmatch : ∃ portions, Replaced f portions s := by
    obtain ⟨portions, h⟩ := hmatch
    obtain ⟨tail, ⟨⟩, htail⟩ := (replaced_cons_iff (c := .absolute) id).mp h
    exact ⟨portions, htail⟩
  obtain hf | ⟨hne, hf⟩ := hf
  · exact translated_inferiors_iff hhead hs hf (hg.trans hf) hmatch
  · exact translated_wild_iff hhead hs hne hf hg hmatch

/-- From `/a/**` to `/x/**`, of `/a/b`. -/
theorem translated_iff_inferiors :
    Translated [.absolute, .string ['a'], .string ['b']]
        [.absolute, .string ['a'], .wildInferiors] [.absolute, .string ['x'], .wildInferiors] ↔
      Straight [.string ['a'], .string ['b']] [.string ['a'], .wildInferiors]
        [.string ['x'], .wildInferiors] :=
  translated_iff _ _ _ .absolute (.inl rfl) (by decide) (.inl (by decide)) (by decide)
    ⟨_, .literal nofun nofun (.literal nofun nofun (.inferiors [.string ['b']] .nil))⟩

/-- There `/a/b` becomes `/x/a/b`. -/
theorem not_translated_inferiors :
    ¬Translated [.absolute, .string ['a'], .string ['b']]
        [.absolute, .string ['a'], .wildInferiors] [.absolute, .string ['x'], .wildInferiors] := by
  intro h
  obtain ⟨result, hresult, hreplaced⟩ := h [[.string ['b']]]
    (.literal nofun nofun (.literal nofun nofun (.inferiors [.string ['b']] .nil)))
  have hrun : translateDirectory [.absolute, .string ['a'], .string ['b']]
      [.absolute, .string ['a'], .wildInferiors] [.absolute, .string ['x'], .wildInferiors] none =
        .ok [.absolute, .string ['x'], .string ['a'], .string ['b']] := by decide
  obtain rfl := Except.ok.inj (hresult.symm.trans hrun)
  have happend : Replaced ([.absolute, .string ['x']] ++ [.wildInferiors]) [[.string ['b']]]
      [.absolute, .string ['x'], .string ['a'], .string ['b']] := hreplaced
  obtain ⟨tail, heq, htail⟩ := (replaced_append_iff (by decide)).mp happend
  obtain ⟨portion, ⟨⟩, rfl⟩ := (replaced_inferiors_iff (by decide)).mp htail
  cases heq

end Xcl.Directories
