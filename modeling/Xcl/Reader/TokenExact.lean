import Mathlib
import Xcl.Reader.Token

/-!
# Token reading is exact

* `Closed`, `streamReadMultipleEscape_spec`: the text after a multiple escape;
* **`streamReadToken_exact`**: every text.
-/

namespace Xcl.Reader

open BitVectors (BitVector)

variable {rt : Readtable}

/-! ## Multiple escapes -/

variable (rt) in
def Closed (string text : List Char) : Except Error (List Char × List Char) → Prop
  | .ok (string', rest) => ∃ (inside : List Inside) (stop : Char), (∀ x ∈ inside, x.Valid rt) ∧
      rt.syntaxType stop = .multipleEscape ∧
      text = inside.flatMap Inside.text ++ stop :: rest ∧
      string' = string ++ inside.map Inside.read
  | .error e => e = .endOfFile ∧ ∃ inside : List Inside, (∀ x ∈ inside, x.Valid rt) ∧
      (text = inside.flatMap Inside.text ∨
        ∃ escape, rt.syntaxType escape = .singleEscape ∧
          text = inside.flatMap Inside.text ++ [escape])

theorem Closed.cons {string text : List Char} {x : Inside} (hx : x.Valid rt)
    {r : Except Error (List Char × List Char)} (h : Closed rt (string ++ [x.read]) text r) :
    Closed rt string (x.text ++ text) r := by
  cases r with
  | ok r =>
    obtain ⟨inside, stop, hvalid, hstop, rfl, hstring⟩ := h
    refine ⟨x :: inside, stop, List.forall_mem_cons.mpr ⟨hx, hvalid⟩, hstop, by simp, ?_⟩
    rw [hstring]
    simp
  | error e =>
    obtain ⟨he, inside, hvalid, rfl | ⟨escape, hescape, rfl⟩⟩ := h
    · exact ⟨he, x :: inside, List.forall_mem_cons.mpr ⟨hx, hvalid⟩, .inl (by simp)⟩
    · exact ⟨he, x :: inside, List.forall_mem_cons.mpr ⟨hx, hvalid⟩,
        .inr ⟨escape, hescape, by simp⟩⟩

theorem streamReadMultipleEscape_spec (rt : Readtable) (string text : List Char) :
    Closed rt string text (streamReadMultipleEscape rt string text) := by
  fun_induction streamReadMultipleEscape rt string text with
  | case1 string => exact ⟨rfl, [], by simp, .inl rfl⟩
  | case2 string c hc => exact ⟨rfl, [], by simp, .inr ⟨c, hc, rfl⟩⟩
  | case3 string c hc n text ih => exact ih.cons (x := .single c n) hc
  | case4 string c text hc hm => exact ⟨[], c, by simp, hm, rfl, by simp⟩
  | case5 string c text hc hm ih => exact ih.cons (x := .char c) ⟨hc, hm⟩

/-! ## The marks -/

/-- The flags of the characters of some pieces. -/
def flags (pieces : List Piece) : List Bool := (pieces.flatMap Piece.read).map Prod.snd

theorem flags_append (pieces pieces' : List Piece) :
    flags (pieces ++ pieces') = flags pieces ++ flags pieces' := by
  simp [flags]

variable (rt) in
structure Marked (pieces : List Piece) (token : Token) : Prop where
  string : token.string = (pieces.flatMap Piece.read).map fun x =>
    if x.2 then x.1 else rt.readtableCase.apply x.1
  null : token.escapes = none ↔ ∀ p ∈ pieces, ¬ p.IsEscape
  bits : ∀ i, escapedAt token.escapes i = (flags pieces).getD i false

theorem Marked.length {pieces : List Piece} {token : Token} (h : Marked rt pieces token) :
    token.string.length = (flags pieces).length := by
  rw [h.string, flags, List.length_map, List.length_map]

theorem getBit_mark (escapes : Option BitVector) {begin stop : ℕ} (h : begin ≤ stop) (i : ℕ) :
    (mark escapes begin stop).getBit i =
      (decide (begin ≤ i ∧ i < stop) || escapedAt escapes i) := by
  have hrange : i ∈ List.range' begin (stop - begin) ↔ begin ≤ i ∧ i < stop := by
    rw [List.mem_range'_1]
    omega
  unfold mark
  cases escapes with
  | none =>
    rw [(BitVector.getBit_setBits (fun i' hi' => ?_) i).1, decide_eq_decide.mpr hrange,
      BitVector.getBit_new]
    · rfl
    · rw [List.mem_range'_1] at hi'
      show i' < stop
      omega
  | some v =>
    rw [(BitVector.getBit_setBits (fun i' hi' => ?_) i).1, decide_eq_decide.mpr hrange,
      BitVector.getBit_ensureCapacity]
    · rfl
    · rw [List.mem_range'_1] at hi'
      exact Nat.lt_of_lt_of_le (by omega) (v.le_capacity_ensureCapacity stop)

theorem Piece.read_isEscape {p : Piece} (h : p.IsEscape) : ∀ x ∈ p.read, x.2 = true := by
  cases p with
  | plain c => exact absurd h id
  | single escape c => simp [Piece.read]
  | multiple start inside stop => simp [Piece.read]

theorem getD_append_replicate (l : List Bool) (n i : ℕ) :
    (l ++ List.replicate n true).getD i false =
      (decide (l.length ≤ i ∧ i < l.length + n) || l.getD i false) := by
  simp only [List.getD_eq_getElem?_getD, List.getElem?_append]
  split_ifs with hi
  · simp [Nat.not_le_of_lt hi]
  · rw [List.getElem?_replicate, List.getElem?_eq_none (Nat.le_of_not_lt hi)]
    split_ifs with hn
    · simp only [Option.getD_some, Option.getD_none, Bool.or_false]
      exact (decide_eq_true (by omega)).symm
    · simp only [Option.getD_none, Bool.or_false]
      exact (decide_eq_false (by omega)).symm

section Steps

variable {pieces : List Piece} {token : Token}

theorem Marked.plain (h : Marked rt pieces token) (c : Char) :
    Marked rt (pieces ++ [.plain c])
      ⟨token.string ++ [rt.readtableCase.apply c], token.escapes⟩ where
  string := by
    rw [h.string]
    simp [Piece.read]
  null := by
    rw [h.null]
    simp [or_imp, forall_and, Piece.IsEscape]
  bits i := by
    rw [h.bits, flags_append]
    simp only [flags, List.flatMap_cons, Piece.read, List.flatMap_nil, List.append_nil,
      List.map_cons, List.map_nil, List.getD_eq_getElem?_getD, List.getElem?_append]
    split_ifs with hi
    · rfl
    · rw [List.getElem?_eq_none (Nat.le_of_not_lt hi)]
      cases i - (List.map Prod.snd (pieces.flatMap Piece.read)).length <;> rfl

theorem Marked.escape (h : Marked rt pieces token) {p : Piece} (hp : p.IsEscape)
    {string : List Char} (hstring : string = token.string ++ p.read.map Prod.fst) :
    Marked rt (pieces ++ [p])
      ⟨string, some (mark token.escapes token.string.length string.length)⟩ where
  string := by
    have hread : (p.read.map fun x => if x.2 then x.1 else rt.readtableCase.apply x.1) =
        p.read.map Prod.fst :=
      List.map_congr_left fun x hx => if_pos (Piece.read_isEscape hp x hx)
    rw [hstring, h.string, List.flatMap_append, List.map_append]
    simp [hread]
  null := by
    refine iff_of_false (by simp) fun hall => ?_
    exact hall p (List.mem_append_right _ List.mem_cons_self) hp
  bits i := by
    have hflags : flags [p] = List.replicate p.read.length true := by
      rw [List.eq_replicate_iff]
      refine ⟨by simp [flags], fun b hb => ?_⟩
      simp only [flags, List.flatMap_cons, List.flatMap_nil, List.append_nil, List.mem_map] at hb
      obtain ⟨x, hx, rfl⟩ := hb
      exact Piece.read_isEscape hp x hx
    have hlength : string.length = (flags pieces).length + p.read.length := by
      rw [hstring, List.length_append, List.length_map, h.length]
    rw [flags_append, hflags, getD_append_replicate, ← h.bits, ← h.length]
    show (mark token.escapes token.string.length string.length).getBit i = _
    rw [getBit_mark _ (by rw [h.length]; omega), hlength, h.length]

end Steps

/-! ## The loop -/

variable (rt) in
/-- What is read of a text after some pieces. -/
def Walked (pieces : List Piece) (text : List Char) : Except Error (Token × List Char) → Prop
  | .ok (token, rest) => ∃ more : List Piece, (∀ p ∈ more, p.Valid rt) ∧
      text = textOf more ++ rest ∧ Ends rt rest ∧ Marked rt (pieces ++ more) token
  | .error .endOfFile => ∃ (more : List Piece) (rest : List Char), (∀ p ∈ more, p.Valid rt) ∧
      text = textOf more ++ rest ∧ Unterminated rt rest
  | .error (.invalid c) => ∃ (more : List Piece) (rest : List Char), (∀ p ∈ more, p.Valid rt) ∧
      text = textOf more ++ c :: rest ∧ Plain rt c ∧ checkInvalid c = true

theorem textOf_cons (p : Piece) (pieces : List Piece) :
    textOf (p :: pieces) = p.text ++ textOf pieces := rfl

theorem Walked.cons {pieces : List Piece} {text : List Char} {p : Piece} (hp : p.Valid rt)
    {r : Except Error (Token × List Char)} (h : Walked rt (pieces ++ [p]) text r) :
    Walked rt pieces (p.text ++ text) r := by
  match r with
  | .ok (token, rest) =>
    obtain ⟨more, hvalid, rfl, hends, hmarked⟩ := h
    refine ⟨p :: more, List.forall_mem_cons.mpr ⟨hp, hvalid⟩, by simp [textOf_cons], hends, ?_⟩
    rwa [List.append_assoc] at hmarked
  | .error .endOfFile =>
    obtain ⟨more, rest, hvalid, rfl, hun⟩ := h
    exact ⟨p :: more, rest, List.forall_mem_cons.mpr ⟨hp, hvalid⟩, by simp [textOf_cons], hun⟩
  | .error (.invalid c) =>
    obtain ⟨more, rest, hvalid, rfl, hc⟩ := h
    exact ⟨p :: more, rest, List.forall_mem_cons.mpr ⟨hp, hvalid⟩, by simp [textOf_cons], hc⟩

theorem Walked.endOfFile {pieces : List Piece} {text : List Char} (h : Unterminated rt text) :
    Walked rt pieces text (.error .endOfFile) := ⟨[], text, by simp, rfl, h⟩

theorem Closed.unterminated {string text : List Char} {e : Error} {start : Char}
    (hstart : rt.syntaxType start = .multipleEscape) (h : Closed rt string text (.error e)) :
    e = .endOfFile ∧ Unterminated rt (start :: text) := by
  obtain ⟨he, inside, hvalid, rfl | ⟨escape, hescape, rfl⟩⟩ := h
  · exact ⟨he, .multiple start inside hstart hvalid⟩
  · exact ⟨he, .both start inside escape hstart hvalid hescape⟩

theorem readTokenLoop_spec {n : ℕ} {pieces : List Piece} {token : Token} {text : List Char}
    (hn : text.length < n) (h : Marked rt pieces token) :
    Walked rt pieces text (readTokenLoop rt n token text) := by
  induction n generalizing pieces token text with
  | zero => omega
  | succ n ih =>
    cases text with
    | nil =>
      refine ⟨[], by simp, rfl, by simp [Ends], ?_⟩
      rwa [List.append_nil]
    | cons c text =>
      have hends : ∀ (hc : rt.syntaxType c = .whitespace ∨ rt.syntaxType c = .terminatingMacro),
          Walked rt pieces (c :: text) (.ok (token, c :: text)) := fun hc =>
        ⟨[], by simp, rfl, by simpa [Ends] using hc, by rwa [List.append_nil]⟩
      have hplain : ∀ hc : Plain rt c, Walked rt pieces (c :: text)
          (if checkInvalid c then .error (.invalid c)
          else readTokenLoop rt n ⟨token.string ++ [rt.readtableCase.apply c], token.escapes⟩
            text) := by
        intro hc
        split_ifs with hinvalid
        · exact ⟨[], text, by simp, rfl, hc, hinvalid⟩
        · have hvalid : (Piece.plain c).Valid rt := ⟨hc, by simpa using hinvalid⟩
          exact Walked.cons hvalid (ih (by simpa using hn) (h.plain c))
      rw [readTokenLoop.eq_def]
      dsimp only
      cases hc : rt.syntaxType c with
      | whitespace => exact hends (.inl hc)
      | terminatingMacro => exact hends (.inr hc)
      | constituent => exact hplain (.inl hc)
      | nonTerminatingMacro => exact hplain (.inr hc)
      | singleEscape =>
        cases text with
        | nil => exact Walked.endOfFile (.single c hc)
        | cons x text =>
          have hstep := h.escape (p := .single c x) trivial rfl
          have hlength : (token.string ++ [x]).length - 1 = token.string.length := by simp
          simp only [hlength]
          exact Walked.cons (p := .single c x) hc (ih (by simp at hn; omega) hstep)
      | multipleEscape =>
        have hclosed := streamReadMultipleEscape_spec rt [] text
        cases hread : streamReadMultipleEscape rt [] text with
        | error e =>
          rw [hread] at hclosed
          obtain ⟨rfl, hun⟩ := hclosed.unterminated hc
          exact Walked.endOfFile hun
        | ok r =>
          obtain ⟨string, rest⟩ := r
          rw [hread] at hclosed
          obtain ⟨inside, stop, hinside, hstop, rfl, rfl⟩ := hclosed
          have hstring : token.string ++ inside.map Inside.read =
              token.string ++ (Piece.read (.multiple c inside stop)).map Prod.fst := by
            simp [Piece.read]
          have hrest : rest.length < n := by
            simp at hn
            omega
          have hwalked := Walked.cons (p := .multiple c inside stop) ⟨hc, hinside, hstop⟩
            (ih hrest (h.escape (p := .multiple c inside stop) trivial hstring))
          have htext : c :: (inside.flatMap Inside.text ++ stop :: rest) =
              Piece.text (.multiple c inside stop) ++ rest := by simp [Piece.text]
          rw [htext]
          exact hwalked

/-! ## The first character -/

variable (rt) in
/-- What is read for the first character, by the spec of the loop. -/
def First (c1 : Char) (text : List Char) : Except Error (Token × List Char) → Prop
  | .ok (token, rest) => ∃ p : Piece, p.Valid rt ∧ c1 :: text = p.text ++ rest ∧
      Marked rt [p] token ∧ rest.length ≤ text.length
  | .error .endOfFile => Unterminated rt (c1 :: text)
  | .error (.invalid c) => c = c1 ∧ Plain rt c ∧ checkInvalid c = true

theorem marked_escaped {p : Piece} (hp : p.IsEscape) {string : List Char} {v : BitVector}
    (hstring : string = p.read.map Prod.fst)
    (hbits : ∀ i, v.getBit i = decide (i < string.length)) : Marked rt [p] ⟨string, some v⟩ := by
  have hempty : Marked rt [] ⟨[], none⟩ := ⟨rfl, by simp, fun _ => rfl⟩
  have hmarked : Marked rt [p] ⟨string, some (mark none 0 string.length)⟩ :=
    hempty.escape hp hstring
  refine ⟨hmarked.string, iff_of_false (by simp) fun hall => ?_, fun i => ?_⟩
  · exact hall p List.mem_cons_self hp
  · rw [← hmarked.bits i]
    show v.getBit i = (mark none 0 string.length).getBit i
    rw [hbits, getBit_mark none (Nat.zero_le _)]
    simp [escapedAt]

theorem readFirst_spec {c1 : Char} (hspace : rt.syntaxType c1 ≠ .whitespace)
    (hterm : rt.syntaxType c1 ≠ .terminatingMacro) (text : List Char) :
    First rt c1 text (readFirst rt c1 text) := by
  have hempty : Marked rt [] ⟨[], none⟩ := ⟨rfl, by simp, fun _ => rfl⟩
  have hplain : ∀ hc : Plain rt c1, First rt c1 text
      (if checkInvalid c1 then .error (.invalid c1)
      else .ok (⟨[rt.readtableCase.apply c1], none⟩, text)) := by
    intro hc
    split_ifs with hinvalid
    · exact ⟨rfl, hc, hinvalid⟩
    · exact ⟨.plain c1, ⟨hc, by simpa using hinvalid⟩, rfl, hempty.plain c1, le_rfl⟩
  rw [readFirst.eq_def]
  cases hc : rt.syntaxType c1 with
  | whitespace => exact absurd hc hspace
  | terminatingMacro => exact absurd hc hterm
  | constituent => exact hplain (.inl hc)
  | nonTerminatingMacro => exact hplain (.inr hc)
  | singleEscape =>
    cases text with
    | nil => exact .single c1 hc
    | cons x text =>
      refine ⟨.single c1 x, hc, rfl,
        marked_escaped (p := .single c1 x) trivial rfl fun i => ?_, Nat.le_succ _⟩
      rw [BitVector.getBit_setBit (by decide), BitVector.getBit_new]
      by_cases hi : i = 0 <;> simp [hi]
  | multipleEscape =>
    have hclosed := streamReadMultipleEscape_spec rt [] text
    cases hread : streamReadMultipleEscape rt [] text with
    | error e =>
      rw [hread] at hclosed
      obtain ⟨rfl, hun⟩ := hclosed.unterminated hc
      exact hun
    | ok r =>
      obtain ⟨string, rest⟩ := r
      rw [hread] at hclosed
      obtain ⟨inside, stop, hinside, hstop, rfl, rfl⟩ := hclosed
      refine ⟨.multiple c1 inside stop, ⟨hc, hinside, hstop⟩, by simp [Piece.text],
        marked_escaped (p := .multiple c1 inside stop) trivial (by simp [Piece.read]) fun i => ?_,
        by simp; omega⟩
      rw [BitVector.getBit_fill, BitVector.getBit_new, BitVector.capacity_new]
      split_ifs with hi <;> simpa using hi

/-! ## The inversion of the case -/

theorem isLower_of_isUpper {c : Char} (h : c.isUpper = true) : c.isLower = false := by
  simp only [Char.isUpper, Char.isLower, decide_eq_true_eq, decide_eq_false_iff_not,
    Bool.and_eq_false_iff, ge_iff_le] at h ⊢
  left
  intro hle
  have hz : 'Z'.val < 'a'.val := by decide
  exact absurd (UInt32.lt_of_lt_of_le (UInt32.lt_of_le_of_lt h.2 hz) hle) (UInt32.lt_irrefl _)

/-- No unescaped letter is in lower case. -/
def NoLower (chars : List (Char × Bool)) : Prop := ∀ x ∈ chars, x.2 = false → x.1.isLower = false

def NoUpper (chars : List (Char × Bool)) : Prop := ∀ x ∈ chars, x.2 = false → x.1.isUpper = false

theorem mixedCase_eq_false {escapes : Option BitVector} {i : ℕ} {state : Option LetterCase}
    {chars : List (Char × Bool)}
    (h : ∀ j, escapedAt escapes (i + j) = (chars.map Prod.snd).getD j false) :
    mixedCase escapes i state (chars.map Prod.fst) = false ↔
      (NoLower chars ∧ state ≠ some .lower) ∨ (NoUpper chars ∧ state ≠ some .upper) := by
  induction chars generalizing i state with
  | nil => cases state with
    | none => simp [mixedCase, NoLower, NoUpper]
    | some s => cases s <;> simp [mixedCase, NoLower, NoUpper]
  | cons x chars ih =>
    obtain ⟨c, e⟩ := x
    have hhead : escapedAt escapes i = e := by simpa using h 0
    have htail : ∀ j, escapedAt escapes (i + 1 + j) = (chars.map Prod.snd).getD j false := by
      intro j
      rw [Nat.add_assoc, Nat.add_comm 1 j, h (j + 1)]
      rfl
    have hlower : NoLower ((c, e) :: chars) ↔ (e = false → c.isLower = false) ∧ NoLower chars := by
      simp [NoLower]
    have hupper : NoUpper ((c, e) :: chars) ↔ (e = false → c.isUpper = false) ∧ NoUpper chars := by
      simp [NoUpper]
    rw [hlower, hupper, List.map_cons, mixedCase, hhead]
    cases e with
    | true => simp [ih htail]
    | false =>
      cases hup : c.isUpper with
      | true =>
        have hlow := isLower_of_isUpper hup
        by_cases hstate : state = some .lower
        · simp [hstate]
        · simp [hstate, hlow, ih htail]
      | false =>
        cases hlow : c.isLower with
        | true =>
          by_cases hstate : state = some .upper
          · simp [hstate]
          · simp [hstate, ih htail]
        | false => simp [ih htail]

theorem invert_eq {escapes : Option BitVector} {chars : List (Char × Bool)}
    (h : ∀ i, escapedAt escapes i = (chars.map Prod.snd).getD i false) :
    invert (chars.map Prod.fst) escapes = convert chars .invert := by
  have hcond : mixedCase escapes 0 none (chars.map Prod.fst) = false ↔
      NoLower chars ∨ NoUpper chars := by
    rw [mixedCase_eq_false fun j => by rw [Nat.zero_add, h]]
    simp
  have hswap : ((chars.map Prod.fst).mapIdx fun i c =>
      if escapedAt escapes i then c else swapCase c) =
      chars.map fun x => if x.2 then x.1 else swapCase x.1 := by
    refine List.ext_getElem (by simp) fun i hi hi' => ?_
    have hi'' : i < chars.length := by simpa using hi'
    simp [h, hi'']
  unfold invert convert
  by_cases hone : NoLower chars ∨ NoUpper chars
  · rw [if_pos (show (∀ x ∈ chars, _) ∨ ∀ x ∈ chars, _ from hone), hcond.mpr hone,
      if_neg Bool.false_ne_true, hswap]
  · rw [if_neg (show ¬((∀ x ∈ chars, _) ∨ ∀ x ∈ chars, _) from hone), if_pos]
    rw [← Bool.not_eq_false, hcond]
    exact hone

/-! ## One division into pieces -/

/-- No piece of a token begins the text. -/
def Stuck (rt : Readtable) (rest : List Char) : Prop :=
  ∀ p : Piece, p.Valid rt → ∀ rest', rest ≠ p.text ++ rest'

variable (rt) in
/-- The character at the beginning of a text between multiple escapes, and the rest. -/
def firstInside : List Char → Option (Inside × List Char)
  | [] => none
  | c :: text =>
    if rt.syntaxType c = .singleEscape then
      match text with
      | [] => none
      | n :: text => some (.single c n, text)
    else if rt.syntaxType c = .multipleEscape then none
    else some (.char c, text)

theorem firstInside_text {x : Inside} (hx : x.Valid rt) (rest : List Char) :
    firstInside rt (x.text ++ rest) = some (x, rest) := by
  cases x with
  | char c => simp [Inside.text, firstInside, hx.1, hx.2]
  | single escape c =>
    have hescape : rt.syntaxType escape = .singleEscape := hx
    simp [Inside.text, firstInside, hescape]

theorem inside_unique {inside inside' : List Inside} {rest rest' : List Char}
    (hvalid : ∀ x ∈ inside, x.Valid rt) (hvalid' : ∀ x ∈ inside', x.Valid rt)
    (hrest : firstInside rt rest = none) (hrest' : firstInside rt rest' = none)
    (h : inside.flatMap Inside.text ++ rest = inside'.flatMap Inside.text ++ rest') :
    inside = inside' ∧ rest = rest' := by
  induction inside generalizing inside' with
  | nil =>
    cases inside' with
    | nil => exact ⟨rfl, h⟩
    | cons y inside' =>
      rw [List.flatMap_nil, List.nil_append, List.flatMap_cons, List.append_assoc] at h
      rw [h, firstInside_text (hvalid' y List.mem_cons_self)] at hrest
      cases hrest
  | cons x inside ih =>
    have hx := firstInside_text (hvalid x List.mem_cons_self)
    rw [List.flatMap_cons, List.append_assoc] at h
    cases inside' with
    | nil =>
      rw [List.flatMap_nil, List.nil_append] at h
      rw [← h, hx] at hrest'
      cases hrest'
    | cons y inside' =>
      rw [List.flatMap_cons, List.append_assoc] at h
      have hpair := congrArg (firstInside rt) h
      rw [hx, firstInside_text (hvalid' y List.mem_cons_self)] at hpair
      obtain ⟨rfl, htail⟩ := Prod.mk.inj (Option.some.inj hpair)
      obtain ⟨rfl, rfl⟩ := ih (fun x hx => hvalid x (List.mem_cons_of_mem _ hx))
        (fun x hx => hvalid' x (List.mem_cons_of_mem _ hx)) htail
      exact ⟨rfl, rfl⟩

theorem firstInside_stop {stop : Char} (h : rt.syntaxType stop = .multipleEscape)
    (rest : List Char) : firstInside rt (stop :: rest) = none := by
  simp [firstInside, h]

theorem firstInside_escape {escape : Char} (h : rt.syntaxType escape = .singleEscape) :
    firstInside rt [escape] = none := by
  simp [firstInside, h]

theorem piece_unique {p p' : Piece} {rest rest' : List Char} (hp : p.Valid rt)
    (hp' : p'.Valid rt) (h : p.text ++ rest = p'.text ++ rest') : p = p' ∧ rest = rest' := by
  cases p with
  | plain c => cases p' <;> simp_all [Piece.text, Piece.Valid, Plain]
  | single escape c => cases p' <;> simp_all [Piece.text, Piece.Valid, Plain]
  | multiple start inside stop =>
    obtain ⟨hstart, hinside, hstop⟩ := hp
    cases p' with
    | plain c => simp_all [Piece.text, Piece.Valid, Plain]
    | single escape c => simp_all [Piece.text, Piece.Valid]
    | multiple start' inside' stop' =>
      obtain ⟨-, hinside', hstop'⟩ := hp'
      simp only [Piece.text, List.cons_append, List.append_assoc, List.cons.injEq,
        List.nil_append] at h
      obtain ⟨rfl, hrest⟩ := inside_unique hinside hinside' (firstInside_stop hstop _)
        (firstInside_stop hstop' _) h.2
      obtain ⟨rfl, rfl⟩ := List.cons.inj hrest
      exact ⟨by rw [h.1], rfl⟩

theorem stuck_of_ends {rest : List Char} (h : Ends rt rest) : Stuck rt rest := by
  rintro p hp rest' rfl
  cases p with
  | plain c =>
    have hc := h c (by simp [Piece.text])
    rcases hp.1 with hp | hp <;> simp [hp] at hc
  | single escape c =>
    have hc := h escape (by simp [Piece.text])
    simp [show rt.syntaxType escape = _ from hp] at hc
  | multiple start inside stop =>
    have hc := h start (by simp [Piece.text])
    simp [hp.1] at hc

theorem stuck_of_invalid {c : Char} {rest : List Char} (hc : Plain rt c)
    (hinvalid : checkInvalid c = true) : Stuck rt (c :: rest) := by
  intro p hp rest' heq
  cases p <;> rcases hc with hc | hc <;> simp_all [Piece.text, Piece.Valid]

theorem stuck_of_unterminated {rest : List Char} (h : Unterminated rt rest) : Stuck rt rest := by
  intro p hp rest' heq
  cases h with
  | single escape hescape => cases p <;> simp_all [Piece.text, Piece.Valid, Plain]
  | multiple start inside hstart hinside =>
    cases p with
    | plain c => simp_all [Piece.text, Piece.Valid, Plain]
    | single escape c => simp_all [Piece.text, Piece.Valid]
    | multiple start' inside' stop =>
      obtain ⟨-, hinside', hstop⟩ := hp
      have htail : inside.flatMap Inside.text ++ [] =
          inside'.flatMap Inside.text ++ stop :: rest' := by
        simpa [Piece.text] using (List.cons.inj heq).2
      cases (inside_unique hinside hinside' rfl (firstInside_stop hstop _) htail).2
  | both start inside escape hstart hinside hescape =>
    cases p with
    | plain c => simp_all [Piece.text, Piece.Valid, Plain]
    | single escape c => simp_all [Piece.text, Piece.Valid]
    | multiple start' inside' stop =>
      obtain ⟨-, hinside', hstop⟩ := hp
      have htail : inside.flatMap Inside.text ++ [escape] =
          inside'.flatMap Inside.text ++ stop :: rest' := by
        simpa [Piece.text] using (List.cons.inj heq).2
      have hrest := (inside_unique hinside hinside' (firstInside_escape hescape)
        (firstInside_stop hstop _) htail).2
      rw [(List.cons.inj hrest).1, hstop] at hescape
      cases hescape

theorem textOf_prefix {pieces pieces' : List Piece} {rest rest' : List Char}
    (hvalid : ∀ p ∈ pieces, p.Valid rt) (hvalid' : ∀ p ∈ pieces', p.Valid rt)
    (hstuck : Stuck rt rest) (h : textOf pieces ++ rest = textOf pieces' ++ rest') :
    ∃ more, pieces = pieces' ++ more ∧ rest' = textOf more ++ rest := by
  induction pieces' generalizing pieces with
  | nil => exact ⟨pieces, rfl, h.symm⟩
  | cons p' pieces' ih =>
    cases pieces with
    | nil =>
      rw [textOf_cons, List.append_assoc] at h
      exact absurd h (hstuck p' (hvalid' p' List.mem_cons_self) _)
    | cons p pieces =>
      rw [textOf_cons, textOf_cons, List.append_assoc, List.append_assoc] at h
      obtain ⟨rfl, htail⟩ := piece_unique (hvalid p List.mem_cons_self)
        (hvalid' p' List.mem_cons_self) h
      obtain ⟨more, rfl, hrest⟩ := ih (fun q hq => hvalid q (List.mem_cons_of_mem _ hq))
        (fun q hq => hvalid' q (List.mem_cons_of_mem _ hq)) htail
      exact ⟨more, rfl, hrest⟩

theorem stuck_unique {pieces pieces' : List Piece} {rest rest' : List Char}
    (hvalid : ∀ p ∈ pieces, p.Valid rt) (hvalid' : ∀ p ∈ pieces', p.Valid rt)
    (hstuck : Stuck rt rest) (hstuck' : Stuck rt rest')
    (h : textOf pieces ++ rest = textOf pieces' ++ rest') : rest = rest' := by
  obtain ⟨more, rfl, hrest⟩ := textOf_prefix hvalid hvalid' hstuck h
  cases more with
  | nil => exact hrest.symm
  | cons p more =>
    rw [textOf_cons, List.append_assoc] at hrest
    exact absurd hrest (hstuck' p (hvalid p (by simp)) _)

theorem textOf_append (pieces pieces' : List Piece) :
    textOf (pieces ++ pieces') = textOf pieces ++ textOf pieces' := List.flatMap_append

/-! ## Tokens without escapes -/

theorem readTokenLoop_plain (token : Token) {n : ℕ} {s rest : List Char} (hn : s.length < n)
    (hs : ∀ c ∈ s, Plain rt c ∧ checkInvalid c = false) (hends : Ends rt rest) :
    readTokenLoop rt n token (s ++ rest) =
      .ok (⟨token.string ++ s.map rt.readtableCase.apply, token.escapes⟩, rest) := by
  induction s generalizing token n with
  | nil =>
    obtain ⟨n, rfl⟩ : ∃ m, n = m + 1 := ⟨n - 1, by simp at hn; omega⟩
    rw [List.map_nil, List.append_nil, List.nil_append]
    cases rest with
    | nil => rfl
    | cons c rest =>
      rw [readTokenLoop.eq_def]
      dsimp only
      rcases hends c rfl with hc | hc <;> rw [hc]
  | cons c s ih =>
    obtain ⟨n, rfl⟩ : ∃ m, n = m + 1 := ⟨n - 1, by simp at hn; omega⟩
    obtain ⟨hc, hvalid⟩ := hs c List.mem_cons_self
    have hrest := ih (n := n) ⟨token.string ++ [rt.readtableCase.apply c], token.escapes⟩
      (by simpa using hn) fun x hx => hs x (List.mem_cons_of_mem _ hx)
    rw [List.append_assoc, List.singleton_append] at hrest
    rw [List.cons_append, List.map_cons, ← hrest, readTokenLoop.eq_def]
    dsimp only
    rcases hc with hc | hc <;> simp [hc, hvalid]

theorem streamReadToken_plain {c1 : Char} {s rest : List Char}
    (hs : ∀ c ∈ c1 :: s, Plain rt c ∧ checkInvalid c = false) (hends : Ends rt rest) :
    streamReadToken rt c1 (s ++ rest) =
      .ok (⟨convert ((c1 :: s).map fun c => (c, false)) rt.readtableCase, none⟩, rest) := by
  obtain ⟨hc, hvalid⟩ := hs c1 List.mem_cons_self
  have hfirst : readFirst rt c1 (s ++ rest) =
      .ok (⟨[rt.readtableCase.apply c1], none⟩, s ++ rest) := by
    rw [readFirst.eq_def]
    rcases hc with hc | hc <;> simp [hc, hvalid]
  have hlength : s.length < (s ++ rest).length + 1 := by
    rw [List.length_append]
    omega
  have hloop := readTokenLoop_plain ⟨[rt.readtableCase.apply c1], none⟩ hlength
    (fun x hx => hs x (List.mem_cons_of_mem _ hx)) hends
  have hfinish : Token.finish rt ⟨(c1 :: s).map rt.readtableCase.apply, none⟩ =
      ⟨convert ((c1 :: s).map fun c => (c, false)) rt.readtableCase, none⟩ := by
    unfold Token.finish
    cases hcase : rt.readtableCase with
    | upcase => simp [convert, Case.apply]
    | downcase => simp [convert, Case.apply]
    | preserve =>
      have hmap : (c1 :: s).map Case.preserve.apply = c1 :: s := List.map_id' (c1 :: s)
      rw [hmap]
      simp [convert, Function.comp_def]
    | invert =>
      have hmap : (c1 :: s).map Case.invert.apply = c1 :: s := List.map_id' (c1 :: s)
      have hflags : ∀ i, escapedAt none i =
          (((c1 :: s).map fun c => (c, false)).map Prod.snd).getD i false := by
        intro i
        rw [List.map_map, List.getD_eq_getElem?_getD, List.getElem?_map]
        cases (c1 :: s)[i]? <;> rfl
      have hinvert := invert_eq hflags
      rw [List.map_map, show Prod.fst ∘ (fun c : Char => (c, false)) = id from rfl,
        List.map_id] at hinvert
      rw [hmap, ← hinvert]
      rfl
  rw [streamReadToken, hfirst]
  show (readTokenLoop rt ((s ++ rest).length + 1) _ (s ++ rest) >>= fun x => _) = _
  rw [hloop, ← hfinish]
  rfl

/-! ## Every text -/

theorem Marked.readAs {pieces : List Piece} {token : Token} (h : Marked rt pieces token) :
    ReadAs rt pieces (token.finish rt) where
  string := by
    have hbits : ∀ i,
        escapedAt (token.escapes.map fun v => v.ensureCapacity token.string.length) i =
          (flags pieces).getD i false := by
      intro i
      rw [← h.bits i]
      cases token.escapes with
      | none => rfl
      | some v => exact v.getBit_ensureCapacity _ i
    have hstring := h.string
    unfold Token.finish
    cases hcase : rt.readtableCase with
    | upcase => simpa [hcase, convert, Case.apply] using hstring
    | downcase => simpa [hcase, convert, Case.apply] using hstring
    | preserve => simpa [hcase, convert, Case.apply] using hstring
    | invert =>
      have hraw : token.string = (pieces.flatMap Piece.read).map Prod.fst := by
        simpa [hcase, Case.apply] using hstring
      rw [← invert_eq hbits, ← hraw]
      rfl
  null := by
    rw [← h.null]
    simp [Token.finish]
  bits v hv i hi := by
    obtain ⟨u, hu, rfl⟩ := Option.map_eq_some_iff.mp hv
    have hbit := h.bits i
    rw [hu] at hbit
    rw [BitVector.getBit_ensureCapacity, show u.getBit i = _ from hbit, flags,
      List.getD_eq_getElem?_getD, List.getElem?_map, List.getElem?_eq_getElem hi]
    rfl

theorem streamReadToken_walked {c1 : Char} (hspace : rt.syntaxType c1 ≠ .whitespace)
    (hterm : rt.syntaxType c1 ≠ .terminatingMacro) (text : List Char) :
    ∃ r, Walked rt [] (c1 :: text) r ∧
      streamReadToken rt c1 text = r.map fun x => (x.1.finish rt, x.2) := by
  have hfirst := readFirst_spec hspace hterm text
  rw [streamReadToken]
  generalize readFirst rt c1 text = r at hfirst ⊢
  match r, hfirst with
  | .error .endOfFile, hun => exact ⟨.error .endOfFile, Walked.endOfFile hun, rfl⟩
  | .error (.invalid c), ⟨hc1, hc⟩ =>
    subst hc1
    exact ⟨.error (.invalid c), ⟨[], text, by simp, rfl, hc⟩, rfl⟩
  | .ok (token, rest), ⟨p, hp, htext, hmarked, _⟩ =>
    refine ⟨readTokenLoop rt (rest.length + 1) token rest, ?_, ?_⟩
    · have hwalked : Walked rt ([] ++ [p]) rest (readTokenLoop rt (rest.length + 1) token rest) :=
        readTokenLoop_spec (Nat.lt_succ_self rest.length) hmarked
      rw [htext]
      exact hwalked.cons hp
    · show (readTokenLoop rt (rest.length + 1) token rest >>= fun x => _) = _
      cases readTokenLoop rt (rest.length + 1) token rest <;> rfl

theorem exact_of_walked {c1 : Char} {text : List Char} {result : Except Error (Token × List Char)}
    (h : ∃ r, Walked rt [] (c1 :: text) r ∧ result = r.map fun x => (x.1.finish rt, x.2))
    (hspace : rt.syntaxType c1 ≠ .whitespace) (hterm : rt.syntaxType c1 ≠ .terminatingMacro) :
    Exact rt (c1 :: text) result := by
  obtain ⟨r, hwalked, rfl⟩ := h
  match r, hwalked with
  | .error .endOfFile, hwalked => exact hwalked
  | .error (.invalid c), hwalked => exact hwalked
  | .ok (token, rest), ⟨pieces, hvalid, htext, hends, hmarked⟩ =>
    refine ⟨pieces, ?_, hvalid, htext, hends, ?_, hmarked.readAs⟩
    · rintro rfl
      have hrest : rest = c1 :: text := htext.symm
      subst hrest
      exact (hends c1 rfl).elim hspace hterm
    · rintro longer ⟨pieces', -, hvalid', rfl⟩ ⟨rest', htext'⟩
      obtain ⟨more, rfl, -⟩ := textOf_prefix hvalid hvalid' (stuck_of_ends hends)
        (htext.symm.trans htext'.symm)
      rw [textOf_append, List.length_append]
      exact Nat.le_add_right _ _

/-- **Token reading is exact**: for every text and every readtable, from a character on that can
begin a token. A token is returned whenever one ends before a delimiter or at the end of the
text. -/
theorem streamReadToken_exact (rt : Readtable) (c1 : Char) (text : List Char)
    (hspace : rt.syntaxType c1 ≠ .whitespace) (hterm : rt.syntaxType c1 ≠ .terminatingMacro) :
    Exact rt (c1 :: text) (streamReadToken rt c1 text) ∧
      ((∃ token rest, streamReadToken rt c1 text = .ok (token, rest)) ↔
        ∃ pieces rest, (∀ p ∈ pieces, p.Valid rt) ∧ c1 :: text = textOf pieces ++ rest ∧
          Ends rt rest) := by
  have hexact := exact_of_walked (streamReadToken_walked hspace hterm text) hspace hterm
  refine ⟨hexact, ?_, ?_⟩
  · rintro ⟨token, rest, hread⟩
    rw [hread] at hexact
    obtain ⟨pieces, -, hvalid, htext, hends, -⟩ := hexact
    exact ⟨pieces, rest, hvalid, htext, hends⟩
  · rintro ⟨pieces, rest, hvalid, htext, hends⟩
    match hread : streamReadToken rt c1 text, hexact with
    | .ok (token, rest), _ => exact ⟨token, rest, rfl⟩
    | .error .endOfFile, ⟨pieces', rest', hvalid', htext', hun⟩ =>
      obtain rfl := stuck_unique hvalid hvalid' (stuck_of_ends hends) (stuck_of_unterminated hun)
        (htext.symm.trans htext')
      cases hun with
      | single escape h => simp [Ends, h] at hends
      | multiple start inside h => simp [Ends, h] at hends
      | both start inside escape h => simp [Ends, h] at hends
    | .error (.invalid c), ⟨pieces', rest', hvalid', htext', hc, hinvalid⟩ =>
      obtain rfl := stuck_unique hvalid hvalid' (stuck_of_ends hends)
        (stuck_of_invalid hc hinvalid) (htext.symm.trans htext')
      have hc' := hends c rfl
      rcases hc with hc | hc <;> simp [hc] at hc'

/-- The token of a name with an escaped part, before a delimiter. -/
theorem streamReadToken_exact_standard :
    (standardSyntax 'a' ≠ .whitespace ∧ standardSyntax 'a' ≠ .terminatingMacro) ∧
      Exact standardReadtable ['a', '|', 'b', '|', 'c', ' ']
        (streamReadToken standardReadtable 'a' ['|', 'b', '|', 'c', ' ']) :=
  ⟨⟨by decide, by decide⟩,
    (streamReadToken_exact standardReadtable 'a' ['|', 'b', '|', 'c', ' '] (by decide)
      (by decide)).1⟩

end Xcl.Reader
