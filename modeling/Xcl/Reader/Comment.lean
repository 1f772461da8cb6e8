import Mathlib.Tactic

/-!
# Balanced comments

`skip_balanced_comment` looks one character ahead and pushes it back, also when there was none.

* **`skips_iff`**: exactly which comments are skipped.
-/

namespace Xcl.Comments

/-! ## String input streams -/

/-- A stream over the characters of a string from `start` to `stop`. -/
structure StringInputStream where
  string : List Char
  start : ℕ
  stop : ℕ
  offset : ℕ
  start_le : start ≤ offset
  offset_le : offset ≤ stop
  stop_le : stop ≤ string.length

namespace StringInputStream

/-- `read_char`; nothing stands for -1. -/
def readChar (s : StringInputStream) : Option Char × StringInputStream :=
  if h : s.offset < s.stop then
    (some (s.string.get ⟨s.offset, h.trans_le s.stop_le⟩),
      { s with
        offset := s.offset + 1
        start_le := s.start_le.trans (Nat.le_succ _)
        offset_le := h })
  else (none, s)

/-- `unread_char`; the character is not used. -/
def unreadChar (s : StringInputStream) : StringInputStream :=
  if h : s.offset > s.start then
    { s with
      offset := s.offset - 1
      start_le := Nat.le_sub_one_of_lt h
      offset_le := (Nat.sub_le _ _).trans s.offset_le }
  else s

/-- `AnsiStream::skip_balanced_comment`. Every turn of the loop and every nested call takes one from
the fuel. -/
def skipBalancedComment : ℕ → StringInputStream → Option StringInputStream
  | 0, _ => none
  | fuel + 1, s =>
    match s.readChar with
    | (none, s) => some s
    | (some '|', s) =>
      match s.readChar with
      | (some '#', s) => some s
      | (_, s) => skipBalancedComment fuel s.unreadChar
    | (some '#', s) =>
      match s.readChar with
      | (some '|', s) => (skipBalancedComment fuel s).bind (skipBalancedComment fuel)
      | (_, s) => skipBalancedComment fuel s.unreadChar
    | (some _, s) => skipBalancedComment fuel s

/-- The text that can still be read. -/
def text (s : StringInputStream) : List Char := (s.string.take s.stop).drop s.offset

end StringInputStream

/-! ## Markers -/

/-- The text behind the marker that closes `depth + 1` comments. -/
def closing : ℕ → List Char → Option (List Char)
  | 0, '|' :: '#' :: t => some t
  | depth + 1, '|' :: '#' :: t => closing depth t
  | depth, '#' :: '|' :: t => closing (depth + 1) t
  | depth, _ :: t => closing depth t
  | _, [] => none

/-- The last character is a half of a marker and belongs to none. -/
def LoneLast : List Char → Prop
  | '|' :: '#' :: t => LoneLast t
  | '#' :: '|' :: t => LoneLast t
  | [c] => c = '|' ∨ c = '#'
  | _ :: t => LoneLast t
  | [] => False

/-- The comment is skipped: up to behind the marker that closes it, or to the end. -/
def Skips (s : StringInputStream) : Prop :=
  ∃ fuel, ∀ n ≥ fuel, ∃ s', s.skipBalancedComment n = some s' ∧
    s'.string = s.string ∧ s'.start = s.start ∧ s'.stop = s.stop ∧
    s'.offset = s.stop - ((closing 0 s.text).getD []).length

/-- The text does not begin with a marker. -/
def Unmarked (text : List Char) : Prop :=
  ∀ t, text ≠ '|' :: '#' :: t ∧ text ≠ '#' :: '|' :: t

theorem closing_cons {c : Char} {t : List Char} (h : Unmarked (c :: t)) (depth : ℕ) :
    closing depth (c :: t) = closing depth t := by
  cases depth <;> rw [closing] <;> intros <;> subst_vars
  all_goals first | exact (h _).1 rfl | exact (h _).2 rfl

theorem loneLast_cons {c : Char} {t : List Char} (h : Unmarked (c :: t))
    (hlast : t = [] → c ≠ '|' ∧ c ≠ '#') : LoneLast (c :: t) ↔ LoneLast t := by
  cases t with
  | nil =>
    have hc := hlast rfl
    simp only [LoneLast, hc.1, hc.2, or_self]
  | cons c2 t =>
    rw [LoneLast]
    · rintro t rfl ht
      exact (h _).1 (by rw [ht])
    · rintro t rfl ht
      exact (h _).2 (by rw [ht])
    · rintro ⟨⟩

theorem unmarked_of_cases {depth : ℕ} {c : Char} {t : List Char}
    (h1 : ∀ t', depth = 0 → c = '|' → t = '#' :: t' → False)
    (h2 : ∀ depth' t', depth = depth' + 1 → c = '|' → t = '#' :: t' → False)
    (h3 : ∀ t', c = '#' → t = '|' :: t' → False) : Unmarked (c :: t) := by
  refine fun t' => ⟨fun h => ?_, fun h => ?_⟩ <;> obtain ⟨rfl, rfl⟩ := List.cons.inj h
  · cases depth with
    | zero => exact h1 _ rfl rfl rfl
    | succ depth => exact h2 _ _ rfl rfl rfl
  · exact h3 _ rfl rfl

theorem closing_add (m n : ℕ) (t : List Char) :
    closing (m + n + 1) t = (closing m t).bind (closing n) := by
  fun_induction closing m t with
  | case1 t => rw [Nat.zero_add, closing, Option.bind_some]
  | case2 depth t ih => rw [show depth + 1 + n + 1 = depth + n + 1 + 1 by omega, closing, ih]
  | case3 depth t ih =>
    rw [← ih, show depth + 1 + n + 1 = depth + n + 1 + 1 by omega, closing]
  | case4 depth c t h1 h2 h3 ih =>
    rw [closing_cons (unmarked_of_cases h1 h2 h3), ih]
  | case5 => rw [closing, Option.bind_none]

theorem closing_some {m : ℕ} {t t' : List Char} (h : closing m t = some t') :
    t'.length < t.length ∧ (LoneLast t ↔ LoneLast t') := by
  fun_induction closing m t with
  | case1 t =>
    cases h
    exact ⟨by simp only [List.length_cons]; omega, by rw [LoneLast]⟩
  | case2 depth t ih | case3 depth t ih =>
    have hlength := (ih h).1
    refine ⟨by simp only [List.length_cons]; omega, ?_⟩
    rw [LoneLast]
    exact (ih h).2
  | case4 depth c t h1 h2 h3 ih =>
    have hlength := (ih h).1
    refine ⟨by simp only [List.length_cons]; omega, ?_⟩
    rw [← (ih h).2]
    refine loneLast_cons (unmarked_of_cases h1 h2 h3) fun ht => ?_
    rw [ht] at hlength
    cases hlength
  | case5 => cases h

/-! ## Reading -/

namespace StringInputStream

variable {s s' : StringInputStream} {c : Char} {t : List Char}

theorem length_text (s : StringInputStream) : s.text.length = s.stop - s.offset := by
  rw [text, List.length_drop, List.length_take, Nat.min_eq_left s.stop_le]

theorem readChar_nil (h : s.text = []) : s.readChar = (none, s) := by
  have hlength := s.length_text
  rw [h, List.length_nil] at hlength
  rw [readChar, dif_neg (by omega)]

structure Same (s s' : StringInputStream) : Prop where
  string : s'.string = s.string
  start : s'.start = s.start
  stop : s'.stop = s.stop

theorem Same.refl (s : StringInputStream) : s.Same s := ⟨rfl, rfl, rfl⟩

theorem Same.trans {s'' : StringInputStream} (h : s.Same s') (h' : s'.Same s'') : s.Same s'' :=
  ⟨h'.string.trans h.string, h'.start.trans h.start, h'.stop.trans h.stop⟩

theorem readChar_cons (h : s.text = c :: t) :
    ∃ s', s.readChar = (some c, s') ∧ s.Same s' ∧ s'.text = t ∧ s'.unreadChar = s := by
  have hlength := s.length_text
  rw [h, List.length_cons] at hlength
  have hlt : s.offset < s.stop := by omega
  have htake : s.offset < (s.string.take s.stop).length := by
    rw [List.length_take, Nat.min_eq_left s.stop_le]
    exact hlt
  have hcons := List.drop_eq_getElem_cons htake
  rw [← text, h, List.getElem_take] at hcons
  obtain ⟨hc, ht⟩ := List.cons.inj hcons
  refine ⟨{ s with
    offset := s.offset + 1, start_le := s.start_le.trans (Nat.le_succ _), offset_le := hlt },
    ?_, ⟨rfl, rfl, rfl⟩, ht.symm, ?_⟩
  · rw [readChar, dif_pos hlt, List.get_eq_getElem, ← hc]
  · have hstart := s.start_le
    rw [unreadChar, dif_pos (by change s.offset + 1 > s.start; omega)]
    rfl

/-- One turn of the loop. A half of a marker at the end is read again and again. -/
theorem skip_cases (n : ℕ) (s : StringInputStream) :
    (s.text = [] ∧ s.skipBalancedComment (n + 1) = some s) ∨
    (∃ t s', s.text = '|' :: '#' :: t ∧ s.Same s' ∧ s'.text = t ∧
      s.skipBalancedComment (n + 1) = some s') ∨
    (∃ t s', s.text = '#' :: '|' :: t ∧ s.Same s' ∧ s'.text = t ∧
      s.skipBalancedComment (n + 1) =
        (s'.skipBalancedComment n).bind (skipBalancedComment n)) ∨
    (∃ c, s.text = [c] ∧ (c = '|' ∨ c = '#') ∧
      s.skipBalancedComment (n + 1) = s.skipBalancedComment n) ∨
    ∃ c t s', s.text = c :: t ∧ Unmarked (c :: t) ∧ (t = [] → c ≠ '|' ∧ c ≠ '#') ∧ s.Same s' ∧
      s'.text = t ∧ s.skipBalancedComment (n + 1) = s'.skipBalancedComment n := by
  cases htext : s.text with
  | nil =>
    refine Or.inl ⟨rfl, ?_⟩
    rw [skipBalancedComment, readChar_nil htext]
  | cons c t =>
    obtain ⟨s', hread, hsame, ht, hunread⟩ := readChar_cons htext
    by_cases hmarker : c = '|' ∨ c = '#'
    · cases t with
      | nil =>
        refine Or.inr (Or.inr (Or.inr (Or.inl ⟨c, rfl, hmarker, ?_⟩)))
        rcases hmarker with rfl | rfl <;>
          simp only [skipBalancedComment, hread, readChar_nil ht, hunread]
      | cons c2 t =>
        obtain ⟨s2, hread2, hsame2, ht2, hunread2⟩ := readChar_cons ht
        by_cases hpair : c = '|' ∧ c2 = '#'
        · obtain ⟨rfl, rfl⟩ := hpair
          refine Or.inr (Or.inl ⟨t, s2, rfl, hsame.trans hsame2, ht2, ?_⟩)
          simp only [skipBalancedComment, hread, hread2]
        by_cases hpair' : c = '#' ∧ c2 = '|'
        · obtain ⟨rfl, rfl⟩ := hpair'
          refine Or.inr (Or.inr (Or.inl ⟨t, s2, rfl, hsame.trans hsame2, ht2, ?_⟩))
          simp only [skipBalancedComment, hread, hread2]
        have hunmarked : Unmarked (c :: c2 :: t) := by
          refine fun t' => ⟨fun h => hpair ?_, fun h => hpair' ?_⟩
          all_goals exact ⟨(List.cons.inj h).1, (List.cons.inj (List.cons.inj h).2).1⟩
        refine Or.inr (Or.inr (Or.inr (Or.inr ⟨c, c2 :: t, s', rfl, hunmarked, ?_, hsame, ht, ?_⟩)))
        · exact fun h => absurd h (List.cons_ne_nil _ _)
        · rcases hmarker with rfl | rfl <;> simp only [skipBalancedComment, hread, hread2] <;> split
          all_goals simp_all
    · rw [not_or] at hmarker
      have hunmarked : Unmarked (c :: t) := fun t' =>
        ⟨fun h => hmarker.1 (List.cons.inj h).1, fun h => hmarker.2 (List.cons.inj h).1⟩
      refine Or.inr (Or.inr (Or.inr (Or.inr ⟨c, t, s', rfl, hunmarked, fun _ => hmarker, hsame, ht,
        ?_⟩)))
      rw [skipBalancedComment, hread]
      split <;> simp_all

end StringInputStream

namespace StringInputStream

variable {s s' : StringInputStream} {n : ℕ}

theorem sound_of_skip (h : s.skipBalancedComment n = some s') :
    s.Same s' ∧ s'.text = (closing 0 s.text).getD [] ∧
      (closing 0 s.text = none → ¬LoneLast s.text) := by
  induction n generalizing s s' with
  | zero => cases h
  | succ n ih =>
    rcases skip_cases n s with ⟨ht, hskip⟩ | ⟨t, s1, ht, hsame, ht1, hskip⟩ |
      ⟨t, s1, ht, hsame, ht1, hskip⟩ | ⟨c, ht, hc, hskip⟩ |
      ⟨c, t, s1, ht, hunmarked, hlast, hsame, ht1, hskip⟩
    · cases hskip.symm.trans h
      rw [ht]
      exact ⟨.refl s, rfl, fun _ => id⟩
    · cases hskip.symm.trans h
      rw [ht, closing]
      exact ⟨hsame, ht1, fun h => absurd h (Option.some_ne_none _)⟩
    · rw [hskip, Option.bind_eq_some_iff] at h
      obtain ⟨s2, hinner, houter⟩ := h
      obtain ⟨hsame2, ht2, hlone2⟩ := ih hinner
      obtain ⟨hsame', ht', hlone'⟩ := ih houter
      refine ⟨(hsame.trans hsame2).trans hsame', ?_⟩
      rw [ht1] at ht2 hlone2
      rw [ht, closing, closing_add 0 0, LoneLast]
      cases hclosing : closing 0 t with
      | none =>
        rw [hclosing] at ht2
        rw [ht2] at ht'
        exact ⟨ht', fun _ => hlone2 hclosing⟩
      | some t2 =>
        rw [hclosing] at ht2
        rw [ht2] at ht' hlone'
        refine ⟨ht', fun h => ?_⟩
        rw [(closing_some hclosing).2]
        exact hlone' h
    · rw [hskip] at h
      have hlone := (ih h).2.2
      rw [ht] at hlone
      refine absurd ?_ (hlone ?_)
      · rw [LoneLast]
        · exact hc
      · simp [closing]
    · rw [hskip] at h
      obtain ⟨hsame', ht', hlone'⟩ := ih h
      rw [ht1] at ht' hlone'
      rw [ht, closing_cons hunmarked, loneLast_cons hunmarked hlast]
      exact ⟨hsame.trans hsame', ht', hlone'⟩

theorem skip_ends (hlength : s.text.length < n)
    (hends : closing 0 s.text ≠ none ∨ ¬LoneLast s.text) :
    ∃ s', s.skipBalancedComment n = some s' := by
  induction n generalizing s with
  | zero => omega
  | succ n ih =>
    rcases skip_cases n s with ⟨-, hskip⟩ | ⟨t, s1, -, -, -, hskip⟩ |
      ⟨t, s1, ht, -, ht1, hskip⟩ | ⟨c, ht, hc, -⟩ | ⟨c, t, s1, ht, hunmarked, hlast, -, ht1, hskip⟩
    · exact ⟨s, hskip⟩
    · exact ⟨s1, hskip⟩
    · rw [ht, closing, closing_add 0 0, LoneLast] at hends
      rw [ht, List.length_cons, List.length_cons] at hlength
      have hfirst : closing 0 t ≠ none ∨ ¬LoneLast t := by
        refine hends.imp_left fun h hnone => h ?_
        rw [hnone, Option.bind_none]
      obtain ⟨s2, hinner⟩ := @ih s1 (by rw [ht1]; omega) (by rwa [ht1])
      obtain ⟨-, ht2, hlone2⟩ := sound_of_skip hinner
      rw [hskip, hinner, Option.bind_some]
      rw [ht1] at ht2 hlone2
      cases hclosing : closing 0 t with
      | none =>
        rw [hclosing, Option.getD_none] at ht2
        refine ih (by rw [ht2, List.length_nil]; omega) (Or.inr ?_)
        rw [ht2]
        exact id
      | some t2 =>
        rw [hclosing, Option.getD_some] at ht2
        rw [hclosing, Option.bind_some] at hends
        obtain ⟨hlt, hlone⟩ := closing_some hclosing
        exact ih (by rw [ht2]; omega) (by rwa [ht2, ← hlone])
    · have hlone : LoneLast s.text := by
        rw [ht, LoneLast]
        exact hc
      refine absurd hlone (hends.resolve_left fun h => h ?_)
      rw [ht]
      simp [closing]
    · rw [ht, closing_cons hunmarked, loneLast_cons hunmarked hlast] at hends
      rw [ht, List.length_cons] at hlength
      rw [hskip]
      exact ih (by rw [ht1]; omega) (by rwa [ht1])

end StringInputStream

/-- **A comment is skipped exactly when it is closed or no half of a marker is left over** at the
end of the text. -/
theorem skips_iff (s : StringInputStream) :
    Skips s ↔ closing 0 s.text ≠ none ∨ ¬LoneLast s.text := by
  constructor
  · rintro ⟨fuel, h⟩
    obtain ⟨s', hskip, -⟩ := h fuel le_rfl
    by_cases hclosing : closing 0 s.text = none
    · exact Or.inr ((StringInputStream.sound_of_skip hskip).2.2 hclosing)
    · exact Or.inl hclosing
  · refine fun h => ⟨s.text.length + 1, fun n hn => ?_⟩
    obtain ⟨s', hskip⟩ := StringInputStream.skip_ends (Nat.lt_of_succ_le hn) h
    obtain ⟨hsame, htext, -⟩ := StringInputStream.sound_of_skip hskip
    refine ⟨s', hskip, hsame.string, hsame.start, hsame.stop, ?_⟩
    have hlength := s'.length_text
    have hle := s'.offset_le
    rw [hsame.stop] at hlength hle
    rw [← htext, hlength]
    omega

/-- Behind the `#|` of `#||` the bar is read, pushed back at the end and read again. -/
theorem not_skips_bar :
    ¬Skips ⟨['#', '|', '|'], 0, 3, 2, by decide, by decide, by decide⟩ := by
  rintro ⟨fuel, h⟩
  obtain ⟨s', hskip, -⟩ := h fuel le_rfl
  exact (StringInputStream.sound_of_skip hskip).2.2 rfl (Or.inl rfl)

end Xcl.Comments
