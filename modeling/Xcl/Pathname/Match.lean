import Xcl.Pathname.Merge

/-!
# Matching directories

`pathname-match-p.lisp`: a directory is compared with one that may have wildcards.

* **`directoryMatchP_iff`**: exactly which directories are matched as they should be.
-/

namespace Xcl.Directories

/-! ## The functions -/

/-- `EQUALP` on characters -/
def equalpChar (c₁ c₂ : Char) : Bool :=
  c₁ == c₂ || c₁.toUpper == c₂.toUpper || c₁.toLower == c₂.toLower

/-- `EQUALP` on components -/
def Component.equalp : Component → Component → Bool
  | .string s, .string t => s.isEqv t equalpChar
  | thing, wildcard => thing == wildcard

/-- `(if ignore-case (equalp thing wild) (equal thing wild))` -/
def Component.same (ignoreCase : Bool) (thing wildcard : Component) : Bool :=
  if ignoreCase then thing.equalp wildcard else thing == wildcard

/-- `Unsupported wildcard pattern: ~S` -/
structure UnsupportedWildcardPattern where
  wildcard : Component
deriving DecidableEq, Repr

/-- `component-match-p`, of components of directories: these are not `NIL`. -/
def componentMatchP (thing wildcard : Component) (ignoreCase : Bool) :
    Except UnsupportedWildcardPattern Bool :=
  match wildcard with
  | .wild => .ok true
  | .string s => if '*' ∈ s then .error ⟨.string s⟩ else .ok (thing.same ignoreCase (.string s))
  | wildcard => .ok (thing.same ignoreCase wildcard)

def directoryMatchComponents (ignoreCase : Bool) :
    List Component → List Component → Except UnsupportedWildcardPattern Bool
  | [], wild => .ok (wild = [] ∨ wild = [.wildInferiors])
  | _ :: _, [] => .ok false
  | x :: thing, y :: wild =>
    if y = .wildInferiors then .ok true
    else do
      if ← componentMatchP x y ignoreCase then directoryMatchComponents ignoreCase thing wild
      else return false

/-- The directory of a pathname; `NIL` is the list without components. -/
inductive Directory
  | wild
  | list (components : List Component)
deriving DecidableEq, Repr

/-- `EQUALP` on directories -/
def Directory.equalp : Directory → Directory → Bool
  | .list thing, .list wildcard => thing.isEqv wildcard Component.equalp
  | thing, wildcard => thing == wildcard

def directoryMatchP (thing wildcard : Directory) (ignoreCase : Bool) :
    Except UnsupportedWildcardPattern Bool :=
  if wildcard = .wild then .ok true
  else if wildcard = .list [] then .ok true
  else if ignoreCase ∧ thing.equalp wildcard then .ok true
  else if thing = wildcard then .ok true
  else if thing = .list [] ∧ wildcard = .list [.absolute, .wildInferiors] then .ok true
  else match thing, wildcard with
    | .list (x :: thing), .list (y :: wild) =>
      if x = y then directoryMatchComponents ignoreCase thing wild else .ok false
    | _, _ => .ok false

/-! ## What the wildcards stand for -/

/-- `result` is `wild` with the wildcards replaced by the portions, one after the other. -/
inductive Replaced : List Component → List (List Component) → List Component → Prop
  | nil : Replaced [] [] []
  | literal {c wild portions result} (hwild : c ≠ .wild) (hinferiors : c ≠ .wildInferiors)
      (h : Replaced wild portions result) : Replaced (c :: wild) portions (c :: result)
  | wild {wild portions result} (c : Component) (h : Replaced wild portions result) :
      Replaced (.wild :: wild) ([c] :: portions) (c :: result)
  | inferiors {wild portions result} (portion : List Component)
      (h : Replaced wild portions result) :
      Replaced (.wildInferiors :: wild) (portion :: portions) (portion ++ result)

/-- The components can be obtained by replacing the wildcards. -/
def Fits (ignoreCase : Bool) (thing wild : List Component) : Prop :=
  ∃ portions result, Replaced wild portions result ∧
    List.Forall₂ (fun x y => Component.same ignoreCase x y = true) thing result

/-- Two directories, without their first components, for which the walk goes wrong at the first
`:WILD-INFERIORS`: more of these follow at the end of the directory, or what follows fits no end
of it. -/
inductive Misjudged (ignoreCase : Bool) : List Component → List Component → Prop
  | ends {wild} (hne : wild ≠ []) (hall : ∀ c ∈ wild, c = .wildInferiors) :
      Misjudged ignoreCase [] (.wildInferiors :: wild)
  | stays {x thing wild} (h : ∀ rest, rest <:+ x :: thing → ¬Fits ignoreCase rest wild) :
      Misjudged ignoreCase (x :: thing) (.wildInferiors :: wild)
  | next {x y thing wild} (hy : y ≠ .wildInferiors) (hxy : y = .wild ∨ x.same ignoreCase y)
      (h : Misjudged ignoreCase thing wild) : Misjudged ignoreCase (x :: thing) (y :: wild)

/-! ## The equations of `Fits` -/

variable {ignoreCase : Bool} {x y : Component} {thing wild : List Component}

theorem equalpChar_self (c : Char) : equalpChar c c = true := by simp [equalpChar]

theorem Component.same_self (x : Component) : x.same ignoreCase x = true := by
  have hequalp : x.equalp x = true := by
    cases x with
    | string s =>
      rw [Component.equalp, List.isEqv_eq_decide]
      simp [equalpChar_self]
    | _ => exact beq_self_eq_true _
  cases ignoreCase with
  | false => exact beq_self_eq_true x
  | true => exact hequalp

theorem fits_nil_iff : Fits ignoreCase [] wild ↔ ∀ c ∈ wild, c = .wildInferiors := by
  constructor
  · rintro ⟨portions, result, h, hsame⟩
    have hresult := List.forall₂_nil_left_iff.mp hsame
    clear hsame
    induction h with
    | nil => exact fun c hc => absurd hc List.not_mem_nil
    | literal => cases hresult
    | wild => cases hresult
    | inferiors portion h ih =>
      exact List.forall_mem_cons.mpr ⟨rfl, ih (List.append_eq_nil_iff.mp hresult).2⟩
  · intro h
    induction wild with
    | nil => exact ⟨[], [], .nil, .nil⟩
    | cons c wild ih =>
      obtain ⟨rfl, hall⟩ := List.forall_mem_cons.mp h
      obtain ⟨portions, result, hreplaced, hsame⟩ := ih hall
      exact ⟨[] :: portions, [] ++ result, .inferiors [] hreplaced, hsame⟩

theorem not_fits_cons_nil : ¬Fits ignoreCase (x :: thing) [] := by
  rintro ⟨portions, result, ⟨⟩, ⟨⟩⟩

theorem fits_inferiors_iff :
    Fits ignoreCase thing (.wildInferiors :: wild) ↔
      ∃ rest, rest <:+ thing ∧ Fits ignoreCase rest wild := by
  constructor
  · rintro ⟨portions, result, h, hsame⟩
    cases h with
    | literal hwild hinferiors h => exact absurd rfl hinferiors
    | inferiors portion h =>
      exact ⟨_, List.drop_suffix _ _, _, _, h, List.forall₂_drop_append _ _ _ hsame⟩
  · rintro ⟨rest, ⟨front, rfl⟩, portions, result, h, hsame⟩
    have hfront : List.Forall₂ (fun x y => Component.same ignoreCase x y = true) front front :=
      List.forall₂_same.mpr fun x _ => x.same_self
    exact ⟨front :: portions, front ++ result, .inferiors front h,
      List.rel_append hfront hsame⟩

theorem fits_cons_iff (hy : y ≠ .wildInferiors) :
    Fits ignoreCase (x :: thing) (y :: wild) ↔
      (y = .wild ∨ x.same ignoreCase y) ∧ Fits ignoreCase thing wild := by
  constructor
  · rintro ⟨portions, result, h, hsame⟩
    cases h with
    | literal hwild hinferiors h =>
      obtain ⟨hxy, hsame⟩ := List.forall₂_cons.mp hsame
      exact ⟨.inr hxy, _, _, h, hsame⟩
    | wild c h => exact ⟨.inl rfl, _, _, h, (List.forall₂_cons.mp hsame).2⟩
    | inferiors portion h => exact absurd rfl hy
  · rintro ⟨hxy, portions, result, h, hsame⟩
    by_cases hwild : y = .wild
    · subst hwild
      exact ⟨[x] :: portions, x :: result, .wild x h, .cons x.same_self hsame⟩
    · exact ⟨portions, y :: result, .literal hwild hy h, .cons (hxy.resolve_left hwild) hsame⟩

/-! ## The walk -/

theorem componentMatchP_eq (hy : ∀ s, y = .string s → '*' ∉ s) :
    componentMatchP x y ignoreCase = .ok (y = .wild ∨ x.same ignoreCase y) := by
  cases y with
  | wild => simp [componentMatchP]
  | string s => simp [componentMatchP, hy s rfl]
  | _ => simp [componentMatchP]

/-- **The walk** answers, and where it is not misjudged the answer is right. -/
theorem directoryMatchComponents_spec (hwild : ∀ s, Component.string s ∈ wild → '*' ∉ s) :
    ∃ b, directoryMatchComponents ignoreCase thing wild = .ok b ∧
      ((b = true ↔ Fits ignoreCase thing wild) ↔ ¬Misjudged ignoreCase thing wild) := by
  fun_induction directoryMatchComponents ignoreCase thing wild with
  | case1 wild =>
    refine ⟨_, rfl, ?_⟩
    rw [fits_nil_iff, decide_eq_true_iff]
    match wild with
    | [] => exact iff_of_true (by simp) nofun
    | [.wildInferiors] => exact iff_of_true (by simp) fun | .ends hne _ => hne rfl
    | .wildInferiors :: c :: rest =>
      by_cases hall : ∀ d ∈ c :: rest, d = .wildInferiors
      · have hmis : Misjudged ignoreCase [] (.wildInferiors :: c :: rest) :=
          .ends (List.cons_ne_nil _ _) hall
        exact iff_of_false (by simpa using hall) (not_not.mpr hmis)
      · refine iff_of_true (by simpa using hall) ?_
        rintro ⟨⟩
        contradiction
    | .absolute :: _ | .relative :: _ | .string _ :: _ | .wild :: _ | .up :: _ | .back :: _ =>
      exact iff_of_true (by simp) nofun
  | case2 x thing => exact ⟨false, rfl, iff_of_true (by simp [not_fits_cons_nil]) nofun⟩
  | case3 x thing wild =>
    refine ⟨true, rfl, ?_⟩
    rw [fits_inferiors_iff]
    constructor
    · rintro h (_ | ⟨hnone⟩ | _)
      · obtain ⟨rest, hrest, hfits⟩ := h.mp rfl
        exact hnone rest hrest hfits
      · contradiction
    · intro h
      refine iff_of_true rfl ?_
      by_contra hnone
      push Not at hnone
      exact h (.stays hnone)
  | case4 x thing y wild hy ih =>
    rw [componentMatchP_eq fun s hs => hwild s (hs ▸ List.mem_cons_self)]
    by_cases hxy : y = .wild ∨ x.same ignoreCase y
    · obtain ⟨b, hb, hiff⟩ := ih fun s hs => hwild s (List.mem_cons_of_mem _ hs)
      refine ⟨b, ?_, ?_⟩
      · simp only [hxy, decide_true]
        exact hb
      · rw [fits_cons_iff hy, and_iff_right hxy, hiff]
        refine not_congr ⟨.next hy hxy, ?_⟩
        rintro (_ | _ | ⟨-, -, h⟩)
        · contradiction
        · exact h
    · refine ⟨false, ?_, ?_⟩
      · simp only [hxy, decide_false]
        rfl
      · refine iff_of_true (by simp [fits_cons_iff hy, hxy]) ?_
        rintro (_ | _ | ⟨-, hxy', -⟩)
        · contradiction
        · exact hxy hxy'

theorem directoryMatchComponents_of_isEqv (hwild : ∀ s, Component.string s ∈ wild → '*' ∉ s)
    (h : thing.isEqv wild (Component.same ignoreCase) = true) :
    directoryMatchComponents ignoreCase thing wild = .ok true := by
  fun_induction directoryMatchComponents ignoreCase thing wild with
  | case1 wild =>
    cases wild with
    | nil => rfl
    | cons y wild => cases h
  | case2 => cases h
  | case3 => rfl
  | case4 x thing y wild hy ih =>
    obtain ⟨hxy, hrest⟩ := Bool.and_eq_true_iff.mp h
    rw [componentMatchP_eq fun s hs => hwild s (hs ▸ List.mem_cons_self)]
    simp only [hxy, or_true, decide_true]
    exact ih (fun s hs => hwild s (List.mem_cons_of_mem _ hs)) hrest

theorem directoryMatchP_eq {head : Component}
    (hwild : ∀ s, Component.string s ∈ wild → '*' ∉ s) :
    directoryMatchP (.list (head :: thing)) (.list (head :: wild)) ignoreCase =
      directoryMatchComponents ignoreCase thing wild := by
  have hself : thing.isEqv thing (Component.same ignoreCase) = true := by
    rw [List.isEqv_eq_decide]
    simp [Component.same_self]
  rw [directoryMatchP, if_neg nofun, if_neg nofun]
  split_ifs with hequalp hequal hnull hhead
  · obtain ⟨hcase, h⟩ := hequalp
    have hsame : Component.same ignoreCase = Component.equalp := by
      funext x y
      rw [Component.same, if_pos hcase]
    exact (directoryMatchComponents_of_isEqv hwild (hsame ▸ (Bool.and_eq_true_iff.mp h).2)).symm
  · cases hequal
    exact (directoryMatchComponents_of_isEqv hwild hself).symm
  · cases hnull.1
  · rfl
  · exact absurd rfl hhead

/-! ## The theorem -/

/-- **What is matched as it should be**: the answer says whether the wildcards can be replaced,
unless the walk is misjudged. -/
theorem directoryMatchP_iff (ignoreCase : Bool) (head : Component) (thing wild : List Component)
    (hwild : ∀ s, Component.string s ∈ wild → '*' ∉ s) :
    ∃ b, directoryMatchP (.list (head :: thing)) (.list (head :: wild)) ignoreCase = .ok b ∧
      ((b = true ↔ Fits ignoreCase thing wild) ↔ ¬Misjudged ignoreCase thing wild) := by
  obtain ⟨b, hb, hiff⟩ := @directoryMatchComponents_spec ignoreCase thing wild hwild
  exact ⟨b, (directoryMatchP_eq hwild).trans hb, hiff⟩

/-- `/a/b` and `/**/c` -/
theorem directoryMatchP_iff_absolute :
    ∃ b, directoryMatchP (.list [.absolute, .string ['a'], .string ['b']])
        (.list [.absolute, .wildInferiors, .string ['c']]) false = .ok b ∧
      ((b = true ↔ Fits false [.string ['a'], .string ['b']] [.wildInferiors, .string ['c']]) ↔
        ¬Misjudged false [.string ['a'], .string ['b']] [.wildInferiors, .string ['c']]) :=
  directoryMatchP_iff false .absolute _ _ (by simp)

/-- `/a/b` is taken to match `/**/c`. -/
theorem not_fits_absolute :
    directoryMatchP (.list [.absolute, .string ['a'], .string ['b']])
        (.list [.absolute, .wildInferiors, .string ['c']]) false = .ok true ∧
      ¬Fits false [.string ['a'], .string ['b']] [.wildInferiors, .string ['c']] := by
  refine ⟨by decide, ?_⟩
  rw [fits_inferiors_iff]
  rintro ⟨rest, hrest, hfits⟩
  match rest with
  | [] => exact absurd (fits_nil_iff.mp hfits) (by decide)
  | [c] =>
    obtain ⟨front, hfront⟩ := hrest
    have hlast : front ++ [c] = [.string ['a']] ++ [.string ['b']] := hfront
    obtain ⟨-, ⟨⟩⟩ := List.append_inj' hlast rfl
    exact absurd ((fits_cons_iff (by decide)).mp hfits).1 (by decide)
  | c :: d :: rest => exact not_fits_cons_nil ((fits_cons_iff (by decide)).mp hfits).2

end Xcl.Directories
