import Xcl.Reader.Atom
import Xcl.Reader.TokenExact

/-!
# Lists

`stream_read_list` handles a dot within the loop over the elements: it stores the next object in the
last cons and goes on.

* **`listRead_iff`**: it reads all lists but those with something behind the object after a dot.
-/

namespace Xcl.Reader

-- The equations of these functions are made once, before the lemmas that use them.
section
attribute [local simp] Context.streamRead
end

variable {α φ ε : Type}

def isDelimiter (c : Char) : Bool :=
  c ∈ ['"', '\'', '(', ')', ',', ';', Char.ofNat 96] || c.toNat ∈ [9, 10, 12, 13, 32]

namespace Context

variable (C : Context α φ ε)

/-- The loop of `stream_read_list`: `elements` are the objects in the conses from `first` to `last`,
and `tail` is the object that has been stored in `last`. -/
def streamReadList (requireProperList : Bool) : ℕ → List α → Option α → List Char →
    Option (Except (ReadError ε) (List α × Option α × List Char))
  | 0, _, _, _ => none
  | _ + 1, _, _, [] => some (.error (.token .endOfFile))
  | n + 1, elements, tail, c :: text =>
    if C.isWhitespace c then streamReadList requireProperList n elements tail text
    else if c = ')' then some (.ok (elements, tail, text))
    else if c = '.' ∧ text = [] then some (.error (.token .endOfFile))
    else if c = '.' ∧ text.head?.any isDelimiter then
      if elements = [] then
        if C.readSuppress then some (.ok ([], none, text.tail)) else some (.error .nothingBeforeDot)
      else
        match C.streamRead n text with
        | none => none
        | some (.error e) => some (.error e)
        | some (.ok (obj, rest)) =>
          if requireProperList ∧ ¬C.listp obj then some (.error .notAList)
          else streamReadList requireProperList n elements (some obj) rest
    else
      match C.streamProcessChar c text with
      | .error e => some (.error e)
      | .ok (none, rest) => streamReadList requireProperList n elements tail rest
      | .ok (some obj, rest) => streamReadList requireProperList n (elements ++ [obj]) none rest

section
attribute [local simp] Context.streamReadList
end

end Context

/-! ## The text of a list -/

inductive Item (α : Type)
  | object (x : α)
  | dot

/-- A character that begins an object, or a text that reads as nothing. -/
def Begins (C : Context α φ ε) (c : Char) (text : List Char) : Prop :=
  C.isWhitespace c = false ∧ c ≠ ')' ∧ ¬(c = '.' ∧ text.head?.all isDelimiter)

instance (C : Context α φ ε) (c : Char) (text : List Char) : Decidable (Begins C c text) :=
  inferInstanceAs (Decidable (C.isWhitespace c = false ∧ c ≠ ')' ∧ ¬(c = '.' ∧ _)))

inductive Items (C : Context α φ ε) : List Char → List (Item α) → List Char → Prop
  | close (text : List Char) : Items C (')' :: text) [] text
  | blank {c : Char} {text : List Char} {items : List (Item α)} {rest : List Char}
      (hc : C.isWhitespace c = true) (h : Items C text items rest) : Items C (c :: text) items rest
  | nothing {c : Char} {text text' : List Char} {items : List (Item α)} {rest : List Char}
      (hc : Begins C c text) (hread : C.streamProcessChar c text = .ok (none, text'))
      (h : Items C text' items rest) : Items C (c :: text) items rest
  | object {c : Char} {text text' : List Char} {x : α} {items : List (Item α)} {rest : List Char}
      (hc : Begins C c text) (hread : C.streamProcessChar c text = .ok (some x, text'))
      (h : Items C text' items rest) : Items C (c :: text) (.object x :: items) rest
  | dot {text : List Char} {items : List (Item α)} {rest : List Char}
      (hdot : text.head?.any isDelimiter = true) (h : Items C text items rest) :
      Items C ('.' :: text) (.dot :: items) rest

/-- `element* | element+ . element` -/
inductive Dotted : List (Item α) → List α → Option α → Prop
  | list (xs : List α) : Dotted (xs.map .object) xs none
  | dotted (xs : List α) (y : α) (h : xs ≠ []) :
    Dotted (xs.map .object ++ [.dot, .object y]) xs (some y)

def Item.toOption : Item α → Option α
  | .object x => some x
  | .dot => none

structure ListRead (C : Context α φ ε) (requireProperList : Bool) (items : List (Item α))
    (rest : List Char) (r : Except (ReadError ε) (List α × Option α × List Char)) : Prop where
  accepted : ∀ xs tail, Dotted items xs tail →
    if requireProperList ∧ ∃ y ∈ tail, C.listp y = false then ∃ e, r = .error e
    else r = .ok (xs, tail, rest)
  rejected : (∀ xs tail, ¬Dotted items xs tail) → ∃ e, r = .error e
  kept : ∀ xs tail text, r = .ok (xs, tail, text) →
    items.filterMap Item.toOption = xs ++ tail.toList

/-- Every dot stands behind an object and directly before one, which is a list if a proper list is
required. -/
def Placed (listp : α → Bool) (requireProperList : Bool) : Bool → List (Item α) → Prop
  | _, [] => True
  | _, .object _ :: items => Placed listp requireProperList true items
  | seen, .dot :: .object y :: items =>
    seen = true ∧ (requireProperList = true → listp y = true) ∧
      Placed listp requireProperList seen items
  | _, .dot :: _ => False

section
attribute [local simp] Placed
end

/-- There is something behind the object after the first dot, and no dot is rejected. -/
def Overwritten (C : Context α φ ε) (requireProperList : Bool) (items : List (Item α)) : Prop :=
  Placed C.listp requireProperList false items ∧
    ∃ (xs : List α) (y : α) (more : List (Item α)),
      more ≠ [] ∧ items = xs.map .object ++ .dot :: .object y :: more

/-! ## The loop -/

/-- The conses after the items, of which every dot is placed. -/
def store : List α → Option α → List (Item α) → List α × Option α
  | elements, tail, [] => (elements, tail)
  | elements, _, .object x :: items => store (elements ++ [x]) none items
  | elements, _, .dot :: .object y :: items => store elements (some y) items
  | elements, tail, .dot :: _ => (elements, tail)

section
attribute [local simp] store
end

section Loop

variable {C : Context α φ ε} (requireProperList : Bool)

theorem isDelimiter_iff (c : Char) : isDelimiter c = true ↔
    standardSyntax c = .whitespace ∨ standardSyntax c = .terminatingMacro := by
  unfold isDelimiter standardSyntax
  by_cases hspace : c.toNat ∈ [9, 10, 12, 13, 32]
  · simp [hspace]
  · by_cases hmem : c ∈ ['"', '\'', '(', ')', ',', ';', Char.ofNat 96]
    · simp only [hmem, hspace, if_true, if_false]
      simp
    · simp only [hmem, hspace, if_false]
      split_ifs <;> simp

theorem streamReadToken_dot (rt : Readtable) (hrt : rt.syntaxType = standardSyntax)
    {text : List Char} (hdot : text.head?.any isDelimiter = true) :
    streamReadToken rt '.' text = .ok (⟨['.'], none⟩, text) := by
  have hplain : ∀ c ∈ ['.'], Plain rt c ∧ checkInvalid c = false := by
    intro c hc
    obtain rfl := List.mem_singleton.mp hc
    refine ⟨.inl ?_, by decide⟩
    rw [hrt]
    decide
  have hends : Ends rt text := by
    intro c hc
    rw [hrt]
    exact (isDelimiter_iff c).mp (by simpa [Option.mem_def.mp hc] using hdot)
  have htoken := streamReadToken_plain hplain hends
  have hconvert : convert (['.'].map fun c => (c, false)) rt.readtableCase = ['.'] := by
    cases rt.readtableCase <;> decide
  rw [hconvert] at htoken
  exact htoken

theorem streamProcessChar_dot (hsuppress : C.readSuppress = false) {text : List Char}
    (hdot : text.head?.any isDelimiter = true) : ∃ e, C.streamProcessChar '.' text = .error e := by
  have hfunction : C.readerMacroFunction '.' = none := rfl
  have hnumber : ∀ base, makeNumber C.libraries C.floatFormat ['.'] base true = .ok none :=
    fun _ => rfl
  rw [Context.streamProcessChar, hfunction, Context.streamReadAtom,
    streamReadToken_dot C.readtable rfl hdot]
  simp only [hsuppress, Option.isNone_none, hnumber, Bool.false_eq_true, if_false, ite_self,
    true_and]
  by_cases hbase : C.readBase < 2 ∨ C.readBase > 36
  · rw [if_pos hbase]
    exact ⟨.readBase, rfl⟩
  · rw [if_neg hbase]
    exact ⟨.dotContext, rfl⟩

variable {text rest : List Char} {items : List (Item α)}

theorem streamReadList_begins {c : Char} (hc : Begins C c text) (n : ℕ) (elements : List α)
    (tail : Option α) : C.streamReadList requireProperList (n + 1) elements tail (c :: text) =
      match C.streamProcessChar c text with
      | .error e => some (.error e)
      | .ok (none, rest) => C.streamReadList requireProperList n elements tail rest
      | .ok (some obj, rest) =>
        C.streamReadList requireProperList n (elements ++ [obj]) none rest := by
  obtain ⟨hspace, hparen, hdot⟩ := hc
  have hend : ¬(c = '.' ∧ text = []) := by
    rintro ⟨rfl, rfl⟩
    exact hdot ⟨rfl, rfl⟩
  have hlone : ¬(c = '.' ∧ text.head?.any isDelimiter = true) := by
    rintro ⟨rfl, hany⟩
    refine hdot ⟨rfl, ?_⟩
    cases text with
    | nil => rfl
    | cons n2 text => exact hany
  rw [Context.streamReadList, hspace, if_neg Bool.false_ne_true, if_neg hparen, if_neg hend,
    if_neg hlone]

theorem streamReadList_dot (hdot : text.head?.any isDelimiter = true)
    (hsuppress : C.readSuppress = false) (n : ℕ) (elements : List α) (tail : Option α) :
    C.streamReadList requireProperList (n + 1) elements tail ('.' :: text) =
      if elements = [] then some (.error .nothingBeforeDot)
      else
        match C.streamRead n text with
        | none => none
        | some (.error e) => some (.error e)
        | some (.ok (obj, rest)) =>
          if requireProperList ∧ ¬C.listp obj then some (.error .notAList)
          else C.streamReadList requireProperList n elements (some obj) rest := by
  have hspace : C.isWhitespace '.' = false := rfl
  have hend : ¬('.' = '.' ∧ text = []) := by
    rintro ⟨-, rfl⟩
    cases hdot
  rw [Context.streamReadList, hspace, if_neg Bool.false_ne_true, if_neg (by decide), if_neg hend,
    if_pos ⟨rfl, hdot⟩, hsuppress]
  simp only [Bool.false_eq_true, if_false]

theorem Items.close_run (h : Items C text [] rest) :
    ∃ k, (∀ m elements tail, C.streamReadList requireProperList (m + k) elements tail text =
        some (.ok (elements, tail, rest))) ∧
      ∀ m, C.streamRead (m + k) text = some (.error .unmatchedRightParenthesis) := by
  generalize hitems : ([] : List (Item α)) = items at h
  induction h with
  | close text =>
    refine ⟨1, fun m elements tail => ?_, fun m => ?_⟩
    · rfl
    · rfl
  | blank hc h ih =>
    obtain ⟨k, hlist, hread⟩ := ih hitems
    refine ⟨k + 1, fun m elements tail => ?_, fun m => ?_⟩
    · rw [← Nat.add_assoc, Context.streamReadList, if_pos hc]
      exact hlist m elements tail
    · rw [← Nat.add_assoc, Context.streamRead, if_pos hc]
      exact hread m
  | nothing hc hprocess h ih =>
    obtain ⟨k, hlist, hread⟩ := ih hitems
    refine ⟨k + 1, fun m elements tail => ?_, fun m => ?_⟩
    · rw [← Nat.add_assoc, streamReadList_begins requireProperList hc, hprocess]
      exact hlist m elements tail
    · rw [← Nat.add_assoc, Context.streamRead, if_neg (by simp [hc.1]), hprocess]
      exact hread m
  | object hc hprocess h ih => cases hitems
  | dot hdot h ih => cases hitems

theorem Items.object_run {x : α} (h : Items C text (.object x :: items) rest) :
    ∃ k text', Items C text' items rest ∧
      (∀ m elements tail, C.streamReadList requireProperList (m + k) elements tail text =
        C.streamReadList requireProperList m (elements ++ [x]) none text') ∧
      ∀ m, C.streamRead (m + k) text = some (.ok (if C.readSuppress then C.nil else x, text')) := by
  generalize hitems : Item.object x :: items = items' at h
  induction h with
  | close text => cases hitems
  | blank hc h ih =>
    obtain ⟨k, text', hrest, hlist, hread⟩ := ih hitems
    refine ⟨k + 1, text', hrest, fun m elements tail => ?_, fun m => ?_⟩
    · rw [← Nat.add_assoc, Context.streamReadList, if_pos hc]
      exact hlist m elements tail
    · rw [← Nat.add_assoc, Context.streamRead, if_pos hc]
      exact hread m
  | nothing hc hprocess h ih =>
    obtain ⟨k, text', hrest, hlist, hread⟩ := ih hitems
    refine ⟨k + 1, text', hrest, fun m elements tail => ?_, fun m => ?_⟩
    · rw [← Nat.add_assoc, streamReadList_begins requireProperList hc, hprocess]
      exact hlist m elements tail
    · rw [← Nat.add_assoc, Context.streamRead, if_neg (by simp [hc.1]), hprocess]
      exact hread m
  | object hc hprocess h ih =>
    cases hitems
    refine ⟨1, _, h, fun m elements tail => ?_, fun m => ?_⟩
    · rw [streamReadList_begins requireProperList hc, hprocess]
    · rw [Context.streamRead, if_neg (by simp [hc.1]), hprocess]
  | dot hdot h ih => cases hitems

theorem Items.dot_run (hsuppress : C.readSuppress = false)
    (h : Items C text (.dot :: items) rest) :
    ∃ k text', text'.head?.any isDelimiter = true ∧ Items C text' items rest ∧
      (∀ m elements tail, C.streamReadList requireProperList (m + k + 1) elements tail text =
        C.streamReadList requireProperList (m + 1) elements tail ('.' :: text')) ∧
      ∃ e, ∀ m, C.streamRead (m + k + 1) text = some (.error e) := by
  generalize hitems : Item.dot :: items = items' at h
  induction h with
  | close text => cases hitems
  | blank hc h ih =>
    obtain ⟨k, text', hdot, hrest, hlist, e, hread⟩ := ih hitems
    refine ⟨k + 1, text', hdot, hrest, fun m elements tail => ?_, e, fun m => ?_⟩
    · rw [← Nat.add_assoc, Context.streamReadList, if_pos hc]
      exact hlist m elements tail
    · rw [← Nat.add_assoc, Context.streamRead, if_pos hc]
      exact hread m
  | nothing hc hprocess h ih =>
    obtain ⟨k, text', hdot, hrest, hlist, e, hread⟩ := ih hitems
    refine ⟨k + 1, text', hdot, hrest, fun m elements tail => ?_, e, fun m => ?_⟩
    · rw [← Nat.add_assoc, streamReadList_begins requireProperList hc, hprocess]
      exact hlist m elements tail
    · rw [← Nat.add_assoc, Context.streamRead, if_neg (by simp [hc.1]), hprocess]
      exact hread m
  | object hc hprocess h ih => cases hitems
  | dot hdot h ih =>
    cases hitems
    obtain ⟨e, he⟩ := streamProcessChar_dot hsuppress hdot
    refine ⟨0, _, hdot, h, fun m elements tail => rfl, e, fun m => ?_⟩
    rw [Nat.add_zero, Context.streamRead, show C.isWhitespace '.' = false from rfl,
      if_neg Bool.false_ne_true, he]

theorem Items.dot_error (hsuppress : C.readSuppress = false)
    (h : Items C text (.dot :: items) rest) (tail : Option α) :
    ∃ k, ∀ m, C.streamReadList requireProperList (m + k) [] tail text =
      some (.error .nothingBeforeDot) := by
  obtain ⟨k, text', hdot, -, hlist, -⟩ :=
    h.dot_run requireProperList hsuppress
  refine ⟨k + 1, fun m => ?_⟩
  rw [← Nat.add_assoc, hlist, streamReadList_dot requireProperList hdot hsuppress, if_pos rfl]

theorem Items.dot_read (hsuppress : C.readSuppress = false)
    (h : Items C text (.dot :: items) rest) {elements : List α} (hne : elements ≠ [])
    (tail : Option α) :
    ∃ k text', Items C text' items rest ∧
      ∀ m, C.streamReadList requireProperList (m + k) elements tail text =
        match C.streamRead m text' with
        | none => none
        | some (.error e) => some (.error e)
        | some (.ok (obj, rest)) =>
          if requireProperList ∧ ¬C.listp obj then some (.error .notAList)
          else C.streamReadList requireProperList m elements (some obj) rest := by
  obtain ⟨k, text', hdot, hrest, hlist, -⟩ :=
    h.dot_run requireProperList hsuppress
  refine ⟨k + 1, text', hrest, fun m => ?_⟩
  rw [← Nat.add_assoc, hlist, streamReadList_dot requireProperList hdot hsuppress, if_neg hne]

/-- After a dot `stream_read` signals an error, unless an object comes next. -/
theorem Items.no_object (hsuppress : C.readSuppress = false) (h : Items C text items rest)
    (hno : ∀ y items', items ≠ .object y :: items') :
    ∃ k e, ∀ m, C.streamRead (m + k) text = some (.error e) := by
  cases items with
  | nil =>
    obtain ⟨k, -, hread⟩ := h.close_run false
    exact ⟨k, _, hread⟩
  | cons item items =>
    cases item with
    | object y => exact absurd rfl (hno y items)
    | dot =>
      obtain ⟨k, -, -, -, -, e, hread⟩ := h.dot_run false hsuppress
      exact ⟨k + 1, e, hread⟩

/-- **Every arrangement**: the loop returns what it has stored if each dot is placed, and signals an
error otherwise. -/
theorem streamReadList_items (hsuppress : C.readSuppress = false) (elements : List α)
    (tail : Option α) (h : Items C text items rest) :
    ∃ r k, (∀ m, C.streamReadList requireProperList (m + k) elements tail text = some r) ∧
      (Placed C.listp requireProperList (decide (elements ≠ [])) items →
        r = .ok ((store elements tail items).1, (store elements tail items).2, rest)) ∧
      (¬Placed C.listp requireProperList (decide (elements ≠ [])) items → ∃ e, r = .error e) := by
  fun_induction store elements tail items generalizing text with
  | case1 elements tail =>
    obtain ⟨k, hlist, -⟩ := h.close_run requireProperList
    exact ⟨_, k, fun m => hlist m elements tail, fun _ => rfl, fun hno => absurd trivial hno⟩
  | case2 elements tail x items ih =>
    obtain ⟨k, text', hrest, hlist, -⟩ := h.object_run requireProperList
    obtain ⟨r, k', hr, hok, herror⟩ := ih hrest
    rw [decide_eq_true (show elements ++ [x] ≠ [] by simp)] at hok herror
    refine ⟨r, k' + k, fun m => ?_, hok, herror⟩
    rw [← Nat.add_assoc, hlist, hr]
  | case3 elements tail y items ih =>
    by_cases hne : elements = []
    · subst hne
      obtain ⟨k, herror⟩ := h.dot_error requireProperList hsuppress tail
      exact ⟨_, k, herror, fun hplaced => absurd hplaced.1 (by simp), fun _ => ⟨_, rfl⟩⟩
    obtain ⟨k, text', hrest, hlist⟩ :=
      h.dot_read requireProperList hsuppress hne tail
    obtain ⟨k', text'', hrest', -, hobject⟩ :=
      hrest.object_run requireProperList
    rw [hsuppress, if_neg Bool.false_ne_true] at hobject
    by_cases hproper : requireProperList = true ∧ ¬C.listp y = true
    · refine ⟨.error .notAList, k' + k, fun m => ?_, fun hplaced => ?_, fun _ => ⟨_, rfl⟩⟩
      · rw [← Nat.add_assoc, hlist, hobject]
        dsimp only
        rw [if_pos hproper]
      · exact absurd (hplaced.2.1 hproper.1) hproper.2
    · obtain ⟨r, k'', hr, hok, herror⟩ := ih hrest'
      refine ⟨r, k'' + k' + k, fun m => ?_, fun hplaced => hok hplaced.2.2, fun hno => herror ?_⟩
      · rw [← Nat.add_assoc, hlist, ← Nat.add_assoc, hobject]
        dsimp only
        rw [if_neg hproper, Nat.add_right_comm, hr]
      · intro hplaced
        refine hno ⟨decide_eq_true hne, fun hp => ?_, hplaced⟩
        by_contra hlistp
        exact hproper ⟨hp, hlistp⟩
  | case4 elements tail items hno =>
    have hunplaced :
        ¬Placed C.listp requireProperList (decide (elements ≠ [])) (.dot :: items) := by
      cases items with
      | nil => exact id
      | cons item items =>
        cases item with
        | object y => exact fun _ => hno y items rfl
        | dot => exact id
    by_cases hne : elements = []
    · subst hne
      obtain ⟨k, herror⟩ := h.dot_error requireProperList hsuppress tail
      exact ⟨_, k, herror, fun hplaced => absurd hplaced hunplaced, fun _ => ⟨_, rfl⟩⟩
    obtain ⟨k, text', hrest, hlist⟩ :=
      h.dot_read requireProperList hsuppress hne tail
    obtain ⟨k', e, hread⟩ := hrest.no_object hsuppress fun y items' heq => hno y items' heq
    refine ⟨.error e, k' + k, fun m => ?_, fun hplaced => absurd hplaced hunplaced,
      fun _ => ⟨_, rfl⟩⟩
    rw [← Nat.add_assoc, hlist, hread]

/-! ## What is accepted -/

variable {elements : List α} {tail : Option α}

theorem store_map (xs : List α) :
    store elements tail (xs.map .object ++ items) =
      store (elements ++ xs) (if xs = [] then tail else none) items := by
  induction xs generalizing elements tail with
  | nil => simp
  | cons x xs ih =>
    rw [List.map_cons, List.cons_append, store, ih]
    simp

theorem placed_map {listp : α → Bool} {seen : Bool} (xs : List α) :
    Placed listp requireProperList seen (xs.map .object ++ items) ↔
      Placed listp requireProperList (seen || !xs.isEmpty) items := by
  induction xs generalizing seen with
  | nil => simp
  | cons x xs ih =>
    rw [List.map_cons, List.cons_append, Placed, ih]
    simp

theorem items_cases (items : List (Item α)) :
    ∃ xs : List α, items = xs.map .object ∨ ∃ more, items = xs.map .object ++ .dot :: more := by
  induction items with
  | nil => exact ⟨[], .inl rfl⟩
  | cons item items ih =>
    cases item with
    | object x =>
      obtain ⟨xs, rfl | ⟨more, rfl⟩⟩ := ih
      · exact ⟨x :: xs, .inl rfl⟩
      · exact ⟨x :: xs, .inr ⟨more, rfl⟩⟩
    | dot => exact ⟨[], .inr ⟨items, rfl⟩⟩

theorem first_dot_unique {xs xs' : List α} {more more' : List (Item α)}
    (h : xs.map .object ++ .dot :: more = xs'.map .object ++ .dot :: more') :
    xs = xs' ∧ more = more' := by
  induction xs generalizing xs' with
  | nil =>
    cases xs' with
    | nil => simpa using h
    | cons x' xs' => simp at h
  | cons x xs ih =>
    cases xs' with
    | nil => simp at h
    | cons x' xs' =>
      simp only [List.map_cons, List.cons_append, List.cons.injEq, Item.object.injEq] at h
      obtain ⟨rfl, h⟩ := h
      obtain ⟨rfl, rfl⟩ := ih h
      exact ⟨rfl, rfl⟩

theorem filterMap_map_object (xs : List α) :
    (xs.map Item.object).filterMap Item.toOption = xs := by
  induction xs with
  | nil => rfl
  | cons x xs ih =>
    rw [List.map_cons, List.filterMap_cons_some (show Item.toOption (.object x) = some x from rfl),
      ih]

theorem dot_not_mem (xs : List α) : Item.dot ∉ xs.map Item.object := by simp

theorem Dotted.unique {xs xs' : List α} {tail tail' : Option α} (h : Dotted items xs tail)
    (h' : Dotted items xs' tail') : xs = xs' ∧ tail = tail' := by
  cases h with
  | list =>
    generalize heq : xs.map Item.object = items at h'
    cases h' with
    | list => exact ⟨List.map_injective_iff.mpr (fun _ _ h => Item.object.inj h) heq, rfl⟩
    | dotted xs' y hne => exact absurd (heq ▸ by simp) (dot_not_mem xs)
  | dotted xs y hne =>
    generalize heq : xs.map Item.object ++ [.dot, .object y] = items at h'
    cases h' with
    | list => exact absurd (heq ▸ by simp) (dot_not_mem xs')
    | dotted xs' y' hne' =>
      obtain ⟨rfl, htail⟩ := first_dot_unique heq
      simpa using htail

theorem not_dotted_of_more {xs : List α} {y : α} {more : List (Item α)} (hmore : more ≠ [])
    {xs' : List α} {tail' : Option α} :
    ¬Dotted (xs.map .object ++ .dot :: .object y :: more) xs' tail' := by
  intro h
  generalize heq : xs.map Item.object ++ .dot :: .object y :: more = items at h
  cases h with
  | list => exact absurd (heq ▸ by simp) (dot_not_mem xs')
  | dotted xs' y' hne' =>
    obtain ⟨-, htail⟩ := first_dot_unique heq
    simp only [List.cons.injEq] at htail
    exact hmore htail.2

variable {requireProperList}

theorem dotted_of_placed {listp : α → Bool} (hplaced : Placed listp requireProperList false items)
    (hmore : ∀ (xs : List α) y more, items = xs.map .object ++ .dot :: .object y :: more →
      more = []) :
    Dotted items (store [] none items).1 (store [] none items).2 ∧
      ¬(requireProperList = true ∧ ∃ y ∈ (store [] none items).2, listp y = false) := by
  obtain ⟨xs, rfl | ⟨more, rfl⟩⟩ := items_cases items
  · have hstore : store [] none (xs.map .object ++ []) =
        store ([] ++ xs) (if xs = [] then none else none) [] :=
      store_map xs
    rw [List.append_nil, ite_self] at hstore
    rw [hstore]
    exact ⟨.list xs, fun h => by obtain ⟨y, hy, -⟩ := h.2; cases hy⟩
  · rw [placed_map] at hplaced
    cases more with
    | nil => exact absurd hplaced id
    | cons item more =>
      cases item with
      | dot => exact absurd hplaced id
      | object y =>
        obtain rfl := hmore xs y more rfl
        obtain ⟨hseen, hproper, -⟩ := hplaced
        have hne : xs ≠ [] := by simpa using hseen
        rw [store_map]
        refine ⟨.dotted xs y hne, ?_⟩
        rintro ⟨hp, y', hy', hlist⟩
        obtain rfl := Option.some.inj hy'
        rw [hproper hp] at hlist
        cases hlist

theorem placed_of_dotted {listp : α → Bool} {xs : List α} (h : Dotted items xs tail)
    (hlist : ¬(requireProperList = true ∧ ∃ y ∈ tail, listp y = false)) :
    Placed listp requireProperList false items := by
  cases h with
  | list =>
    have hplaced : Placed listp requireProperList false (xs.map .object ++ []) :=
      (placed_map requireProperList xs).mpr trivial
    rwa [List.append_nil] at hplaced
  | dotted xs y hne =>
    rw [placed_map]
    refine ⟨by simpa using hne, fun hp => ?_, trivial⟩
    by_contra hno
    exact hlist ⟨hp, y, rfl, by simpa using hno⟩

theorem Dotted.kept {xs : List α} (h : Dotted items xs tail) :
    items.filterMap Item.toOption = xs ++ tail.toList := by
  cases h with
  | list =>
    rw [filterMap_map_object]
    exact (List.append_nil xs).symm
  | dotted xs y hne =>
    rw [List.filterMap_append, filterMap_map_object]
    rfl

theorem listRead_ok_iff {xs : List α} :
    ListRead C requireProperList items rest (.ok (xs, tail, rest)) ↔
      Dotted items xs tail ∧ ¬(requireProperList = true ∧ ∃ y ∈ tail, C.listp y = false) := by
  constructor
  · intro h
    by_contra hno
    by_cases hall : ∀ xs tail, ¬Dotted items xs tail
    · obtain ⟨e, he⟩ := h.rejected hall
      cases he
    · push Not at hall
      obtain ⟨xs', tail', hdotted⟩ := hall
      have haccepted := h.accepted xs' tail' hdotted
      split_ifs at haccepted with hproper
      · obtain ⟨e, he⟩ := haccepted
        cases he
      · cases haccepted
        exact hno ⟨hdotted, hproper⟩
  · rintro ⟨hdotted, hproper⟩
    refine ⟨fun xs' tail' hdotted' => ?_, fun hno => absurd hdotted (hno _ _), ?_⟩
    · obtain ⟨rfl, rfl⟩ := hdotted.unique hdotted'
      rw [if_neg hproper]
    · rintro _ _ _ ⟨⟩
      exact hdotted.kept

end Loop

/-- **Lists are read**, but for those with something behind the object after a dot. -/
theorem listRead_iff (C : Context α φ ε) (hsuppress : C.readSuppress = false)
    (requireProperList : Bool) {text rest : List Char} {items : List (Item α)}
    (h : Items C text items rest) :
    ∃ r k, (∀ n ≥ k, C.streamReadList requireProperList n [] none text = some r) ∧
      (ListRead C requireProperList items rest r ↔ ¬Overwritten C requireProperList items) := by
  obtain ⟨r, k, hr, hok, herror⟩ := streamReadList_items requireProperList hsuppress [] none h
  refine ⟨r, k, fun n hn => ?_, ?_⟩
  · rw [← Nat.sub_add_cancel hn]
    exact hr _
  change Placed C.listp requireProperList false items → _ at hok
  change ¬Placed C.listp requireProperList false items → _ at herror
  by_cases hplaced : Placed C.listp requireProperList false items
  · have hr' := hok hplaced
    subst hr'
    rw [listRead_ok_iff]
    constructor
    · rintro ⟨hdotted, -⟩ ⟨-, xs, y, more, hmore, heq⟩
      exact not_dotted_of_more hmore (heq ▸ hdotted)
    · intro hno
      have hmore : ∀ (xs : List α) y more, items = xs.map .object ++ .dot :: .object y :: more →
          more = [] := by
        intro xs y more heq
        by_contra hmore
        exact hno ⟨hplaced, xs, y, more, hmore, heq⟩
      exact dotted_of_placed hplaced hmore
  · obtain ⟨e, rfl⟩ := herror hplaced
    refine iff_of_true ⟨fun xs tail hdotted => ?_, fun _ => ⟨e, rfl⟩, by simp⟩
      fun hno => hplaced hno.1
    rw [if_pos]
    · exact ⟨e, rfl⟩
    · by_contra hlist
      exact hplaced (placed_of_dotted hdotted hlist)

/-! ## Symbols in lists -/

/-- The standard reader, of which an object is the name of a symbol. -/
def nameContext : Context (List Char) Unit Empty where
  readtableCase := .upcase
  readSuppress := false
  readBase := 10
  floatFormat := .singleFloat
  libraries := ⟨fun _ _ => none, fun _ _ => none⟩
  nil := "NIL".toList
  number _ := []
  intern token := .ok token.string
  listp x := x = "NIL".toList
  functions _ _ := .error .notAList
  dispatchFunctions _ := none

theorem items_pair : Items nameContext ['a', ' ', '.', ' ', 'b', ')']
    [.object ['A'], .dot, .object ['B']] [] := by
  have ha : nameContext.streamProcessChar 'a' [' ', '.', ' ', 'b', ')'] =
      .ok (some ['A'], [' ', '.', ' ', 'b', ')']) := rfl
  have hb : nameContext.streamProcessChar 'b' [')'] = .ok (some ['B'], [')']) := rfl
  refine .object (by decide) ha ?_
  refine .blank rfl (.dot rfl (.blank rfl ?_))
  exact .object (by decide) hb (.close [])

theorem listRead_pair :
    nameContext.readSuppress = false ∧
      Items nameContext ['a', ' ', '.', ' ', 'b', ')'] [.object ['A'], .dot, .object ['B']] [] ∧
      ∃ r k, (∀ n ≥ k, nameContext.streamReadList false n [] none ['a', ' ', '.', ' ', 'b', ')'] =
          some r) ∧
        (ListRead nameContext false [.object ['A'], .dot, .object ['B']] [] r ↔
          ¬Overwritten nameContext false [.object ['A'], .dot, .object ['B']]) :=
  ⟨rfl, items_pair, listRead_iff nameContext rfl false items_pair⟩

/-- `(a . b c)` reads as `(A C)`. -/
theorem not_listRead_overwritten :
    ∃ text items r, Items nameContext text items [] ∧
      nameContext.streamReadList false 9 [] none text = some r ∧
      ¬ListRead nameContext false items [] r := by
  have ha : nameContext.streamProcessChar 'a' [' ', '.', ' ', 'b', ' ', 'c', ')'] =
      .ok (some ['A'], [' ', '.', ' ', 'b', ' ', 'c', ')']) := rfl
  have hb : nameContext.streamProcessChar 'b' [' ', 'c', ')'] =
      .ok (some ['B'], [' ', 'c', ')']) := rfl
  have hc : nameContext.streamProcessChar 'c' [')'] = .ok (some ['C'], [')']) := rfl
  refine ⟨['a', ' ', '.', ' ', 'b', ' ', 'c', ')'],
    [.object ['A'], .dot, .object ['B'], .object ['C']], .ok ([['A'], ['C']], none, []),
    ?_, rfl, ?_⟩
  · refine .object (by decide) ha ?_
    refine .blank rfl (.dot rfl (.blank rfl ?_))
    refine .object (by decide) hb (.blank rfl ?_)
    exact .object (by decide) hc (.close [])
  · intro h
    have hkept := h.kept _ _ _ rfl
    exact absurd hkept (by decide)

end Xcl.Reader
