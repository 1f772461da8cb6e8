import Xcl.Lists.InPlace
import Xcl.Sequences.Counted

/-!
# `substitute`

* **`substitute_right`**: it replaces the elements that the count allows, in a copy.
-/

namespace Xcl.Substitute

open Arrays (mostPositiveFixnum)
open Conses
open Sequences

variable {α : Type}

/-! ## Vectors -/

/-- A vector; `storable` are the objects of its element type, `initial` is in new ones. -/
structure TypedVector (α : Type) where
  elements : List (Value α)
  storable : Value α → Bool
  initial : Value α
  stored : ∀ x ∈ elements, storable x = true
  initial_stored : elements ≠ [] → storable initial = true

namespace TypedVector

/-- `(make-sequence-of-type (type-of sequence) length)` -/
def makeAlike (s : TypedVector α) : TypedVector α where
  elements := List.replicate s.elements.length s.initial
  storable := s.storable
  initial := s.initial
  stored x hx := by
    rw [List.eq_of_mem_replicate hx]
    exact s.initial_stored fun h => by simp [h] at hx
  initial_stored h := s.initial_stored fun hnil => h (by rw [hnil]; rfl)

def aref (s : TypedVector α) (index : ℤ) : Option (Value α) :=
  if 0 ≤ index then s.elements[index.toNat]? else none

def set (s : TypedVector α) (i : ℕ) (x : Value α) (hx : s.storable x = true) : TypedVector α where
  elements := s.elements.set i x
  storable := s.storable
  initial := s.initial
  stored y hy := (List.mem_or_eq_of_mem_set hy).elim (s.stored y) fun h => h ▸ hx
  initial_stored h := s.initial_stored fun hnil => h (by rw [hnil]; rfl)

/-- The datum of a type error, or nothing for an index error. -/
def aset (s : TypedVector α) (index : ℤ) (x : Value α) :
    Option (Except (Value α) (TypedVector α)) :=
  if hx : s.storable x = true then
    if 0 ≤ index ∧ index < s.elements.length then some (.ok (s.set index.toNat x hx)) else none
  else some (.error x)

end TypedVector

inductive Sequence (α : Type)
  | list (v : Value α)
  | vector (s : TypedVector α)

/-! ## The loops -/

def andThen {ε β γ : Type} (x : Option (Except ε β)) (f : β → Option (Except ε γ)) :
    Option (Except ε γ) :=
  match x with
  | some (.ok y) => f y
  | some (.error e) => some (.error e)
  | none => none

def null : Value α → Bool
  | .nil => true
  | _ => false

/-- What a loop that copies takes from an element. -/
def keep (count : ℤ) (elt : Value α) : Value α × ℤ := (elt, count)

/-- What the middle loop takes from an element, with the rest of the count. -/
def replace (p : Value α → Bool) (new : Value α) (count : ℤ) (elt : Value α) : Value α × ℤ :=
  if p elt then (new, count - 1) else (elt, count)

/-- The three loops of `list-substitute*`: a cons for each element is linked behind `splice`. -/
def listLoop (done : ℤ → ℤ → Value α → Bool) (f : ℤ → Value α → Value α × ℤ) :
    ℕ → Heap α → ℤ → ℤ → Value α → ℕ → Run α (ℤ × ℤ × Value α × ℕ)
  | 0, _, _, _, _, _ => none
  | fuel + 1, h, index, count, list, splice =>
    if done index count list then some (.ok (h, index, count, list, splice))
    else match list with
      | .cons a =>
        let (x, count) := f count (h.cells a).car
        let (h, temp) := h.makeCons x .nil
        let h := h.setCdr splice (.cons temp)
        listLoop done f fuel h (index + 1) count (h.cells a).cdr temp
      -- the car and the cdr of `nil`
      | .nil =>
        let (x, count) := f count .nil
        let (h, temp) := h.makeCons x .nil
        listLoop done f fuel (h.setCdr splice (.cons temp)) (index + 1) count .nil temp
      | .other x => some (.error (.other x))

/-- `list-substitute*` -/
def listSubstitute (p : Value α → Bool) (new : Value α) (fuel : ℕ) (h : Heap α) (list : Value α)
    (start stop count : ℤ) : Run α (Value α) :=
  let (h, result) := h.makeCons .nil .nil
  andThen (listLoop (fun index _ _ => index = start) keep fuel h 0 count list result)
    fun (h, _, count, list, splice) =>
  andThen (listLoop (fun index count list => index = stop || null list || count = 0)
    (replace p new) fuel h start count list splice) fun (h, index, count, list, splice) =>
  andThen (listLoop (fun _ _ list => null list) keep fuel h index count list splice)
    fun (h, _) => some (.ok (h, (h.cells result).cdr))

/-- The three loops of `vector-substitute*`. -/
def vectorLoop (done : ℤ → ℤ → Bool) (f : ℤ → Value α → Value α × ℤ) (sequence : TypedVector α)
    (incrementer : ℤ) :
    ℕ → ℤ → ℤ → TypedVector α → Option (Except (Value α) (ℤ × ℤ × TypedVector α))
  | 0, _, _, _ => none
  | fuel + 1, index, count, result =>
    if done index count then some (.ok (index, count, result))
    else match sequence.aref index with
      | none => none
      | some elt => andThen (result.aset index (f count elt).1) fun result =>
        vectorLoop done f sequence incrementer fuel (index + incrementer) (f count elt).2 result

/-- `vector-substitute*` -/
def vectorSubstitute (p : Value α → Bool) (new : Value α) (fuel : ℕ) (sequence : TypedVector α)
    (incrementer left right start stop count : ℤ) : Option (Except (Value α) (TypedVector α)) :=
  andThen (vectorLoop (fun index _ => index = start) keep sequence incrementer fuel left count
    sequence.makeAlike) fun (index, count, result) =>
  andThen (vectorLoop (fun index count => index = stop || count = 0) (replace p new) sequence
    incrementer fuel index count result) fun (index, count, result) =>
  andThen (vectorLoop (fun index _ => index = right) keep sequence incrementer fuel index count
    result) fun (_, _, result) => some (.ok result)

/-! ## The functions -/

def listLength (h : Heap α) : ℕ → Value α → Option (Except (Value α) ℕ)
  | 0, _ => none
  | _ + 1, .nil => some (.ok 0)
  | fuel + 1, .cons a => andThen (listLength h fuel (h.cells a).cdr) fun n => some (.ok (n + 1))
  | _ + 1, .other x => some (.error (.other x))

/-- `reverse` of a list, behind which is `result`. -/
def reverse : ℕ → Heap α → Value α → Value α → Run α (Value α)
  | 0, _, _, _ => none
  | _ + 1, h, .nil, result => some (.ok (h, result))
  | fuel + 1, h, .cons a, result =>
    let (h, temp) := h.makeCons (h.cells a).car result
    reverse fuel h (h.cells a).cdr (.cons temp)
  | _ + 1, _, .other x, _ => some (.error (.other x))

/-- `subst-dispatch`, with the arguments of the three functions. -/
def substDispatch (p : Value α → Bool) (new : Value α) (k : Keys (Value α)) (count : Option ℤ)
    (fuel : ℕ) (h : Heap α) : Sequence α → Run α (Sequence α)
  | .list v => andThen (listLength h fuel v) fun length =>
    let stop := k.stop.getD length
    if k.fromEnd then
      andThen (reverse fuel h v .nil) fun (h, v) =>
      andThen (listSubstitute p new fuel h v (length - stop) (length - k.start) (realCount count))
        fun (h, v) =>
      andThen (nreverse fuel h v) fun (h, v) => some (.ok (h, .list v))
    else
      andThen (listSubstitute p new fuel h v k.start stop (realCount count))
        fun (h, v) => some (.ok (h, .list v))
  | .vector s =>
    let length := s.elements.length
    let stop := k.stop.getD length
    andThen (if k.fromEnd then
      vectorSubstitute p new fuel s (-1) (length - 1) (-1) (stop - 1) (k.start - 1)
        (realCount count)
    else vectorSubstitute p new fuel s 1 0 length k.start stop (realCount count))
      fun s => some (.ok (h, .vector s))

def substitute (new old : Value α) (test : Value α → Value α → Bool)
    (testNot : Option (Value α → Value α → Bool)) (k : Keys (Value α)) (count : Option ℤ) :
    ℕ → Heap α → Sequence α → Run α (Sequence α) :=
  substDispatch ((Pred.normal old test testNot).holds k.key) new k count

def substituteIf (new : Value α) (test : Value α → Bool) (k : Keys (Value α))
    (count : Option ℤ) : ℕ → Heap α → Sequence α → Run α (Sequence α) :=
  substDispatch ((Pred.ifTest test).holds k.key) new k count

def substituteIfNot (new : Value α) (test : Value α → Bool) (k : Keys (Value α))
    (count : Option ℤ) : ℕ → Heap α → Sequence α → Run α (Sequence α) :=
  substDispatch ((Pred.ifNot test).holds k.key) new k count

/-! ## The loops are right -/

/-- What is at a position of the result, in the order of the loops. -/
def outcome (p : Value α → Bool) (new : Value α) (xs : List (Value α)) (start stop : ℕ) (limit : ℤ)
    (k : ℕ) : Value α :=
  if Hit p xs start stop limit k then new else xs.getD k .nil

section

variable {p : Value α → Bool} {new x : Value α} {xs : List (Value α)} {start stop k : ℕ} {limit : ℤ}

theorem keep_eq (hk : ¬Hit p xs start stop limit k) (hx : xs[k]? = some x) (count : ℤ) :
    keep count x = (outcome p new xs start stop limit k, count) := by
  rw [keep, outcome, if_neg hk, List.getD_eq_getElem?_getD, hx, Option.getD_some]

theorem replace_eq (hstart : start ≤ k) (hstop : k < stop)
    (hlimit : (matchesIn p xs start k : ℤ) < limit) (hx : xs[k]? = some x) :
    replace p new (limit - matchesIn p xs start k) x =
      (outcome p new xs start stop limit k, limit - matchesIn p xs start (k + 1)) := by
  rw [matchesIn_succ hstart hx, outcome, List.getD_eq_getElem?_getD, hx]
  by_cases hp : p x = true
  · rw [replace, if_pos hp, if_pos ⟨hstart, hstop, by simpa [hx] using hp, hlimit⟩, if_pos hp]
    push_cast
    rw [sub_sub]
  · rw [replace, if_neg hp, if_neg fun hit => hp (by simpa [hx] using hit.2.2.1), if_neg hp]
    rfl

end

section Lists

variable {p : Value α → Bool} {new : Value α} {h h0 : Heap α} {start stop fuel : ℕ} {limit : ℤ}

theorem listLoop_done {done : ℤ → ℤ → Value α → Bool} {f : ℤ → Value α → Value α × ℤ}
    {index count : ℤ} {list : Value α} (hdone : done index count list = true) (splice : ℕ) :
    listLoop done f (fuel + 1) h index count list splice =
      some (.ok (h, index, count, list, splice)) := by
  cases list <;> rw [listLoop, if_pos hdone]

/-- A loop over the conses `as` from position `i` to position `e`; `g` is what it conses there. -/
theorem listLoop_run (done : ℤ → ℤ → Value α → Bool) (f : ℤ → Value α → Value α × ℤ)
    (cnt : ℕ → ℤ) {g : ℕ → Value α} {as : List ℕ} {e i splice result : ℕ} {v : Value α}
    (he : e ≤ as.length) (hi : i ≤ e) (hfuel : as.length < fuel + i)
    (hseg : h0.Segment v (as.drop i) .nil)
    (hcopied : Copied h0 (.nil :: (List.range i).map g) h result splice)
    (hround : ∀ k a, i ≤ k → k < e → as[k]? = some a → done k (cnt k) (.cons a) = false ∧
      f (cnt k) (h0.cells a).car = (g k, cnt (k + 1)))
    (hend : ∀ u, h0.Segment u (as.drop e) .nil → done e (cnt e) u = true) :
    ∃ h' v' splice', listLoop done f fuel h i (cnt i) v splice =
        some (.ok (h', e, cnt e, v', splice')) ∧
      h0.Segment v' (as.drop e) .nil ∧
      Copied h0 (.nil :: (List.range e).map g) h' result splice' := by
  induction fuel generalizing i h v splice with
  | zero => omega
  | succ fuel ih =>
    rcases Nat.eq_or_lt_of_le hi with rfl | hlt
    · exact ⟨h, v, splice, listLoop_done (hend v hseg) splice, hseg, hcopied⟩
    rw [List.drop_eq_getElem_cons (hlt.trans_le he)] at hseg
    obtain ⟨rfl, ha, hseg⟩ := hseg
    obtain ⟨hdone, hf⟩ := hround i _ le_rfl hlt (List.getElem?_eq_getElem (hlt.trans_le he))
    have hstep := hcopied.step (g i)
    rw [← congrArg Cons.cdr (hstep.same _ ha)] at hseg
    obtain ⟨h', v', splice', hloop, hseg', hcopied'⟩ := ih hlt (by omega) hseg
      (by simpa [List.range_succ] using hstep) fun k a hk => hround k a (Nat.le_of_succ_le hk)
    refine ⟨h', v', splice', ?_, hseg', hcopied'⟩
    rw [listLoop, if_neg (by simpa using hdone), congrArg Cons.car (hcopied.same _ ha)]
    simp only [hf]
    exact_mod_cast hloop

theorem getElem?_elements {as : List ℕ} {k a : ℕ} (ha : as[k]? = some a) :
    (h0.elements as)[k]? = some (h0.cells a).car := by
  rw [Heap.elements, List.getElem?_map, ha, Option.map_some]

theorem Copied.cdr {x : Value α} {xs : List (Value α)} {result splice : ℕ}
    (hcopied : Copied h0 (x :: xs) h result splice) :
    Appends h0 xs .nil (some (.ok (h, (h.cells result).cdr))) := by
  obtain ⟨as, hseg, helements, hnew⟩ := hcopied.cells
  cases hcells : as ++ [splice] with
  | nil => simp at hcells
  | cons a bs =>
    rw [hcells] at hseg helements hnew
    obtain ⟨hresult, -, hseg⟩ := hseg
    cases hresult
    exact ⟨h, _, bs, rfl, hseg, (List.cons.inj helements).2,
      fun b hb => hnew b (List.mem_cons_of_mem _ hb), hcopied.le, hcopied.same⟩

/-- The list version conses the elements of the result. -/
theorem listSubstitute_spec (p : Value α → Bool) (new : Value α) {as : List ℕ} {v : Value α}
    (hseg : h.Segment v as .nil) (hstart : start ≤ stop) (hstop : stop ≤ as.length)
    (hlimit : 0 ≤ limit) (hfuel : as.length < fuel) :
    Appends h ((List.range as.length).map (outcome p new (h.elements as) start stop limit)) .nil
      (listSubstitute p new fuel h v start stop limit) := by
  have hlength : (h.elements as).length = as.length := List.length_map _
  obtain ⟨e, h1, h2, hbefore, hend⟩ :=
    exists_last (p := p) hstart (hstop.trans_eq hlength.symm) hlimit
  have he := h2.trans hstop
  let cnt (k : ℕ) : ℤ := limit - matchesIn p (h.elements as) start k
  obtain ⟨h₁, v₁, splice₁, hloop₁, hseg₁, hcopied₁⟩ := listLoop_run
    (fun index _ _ => index = start) keep (fun _ => limit) (hstart.trans hstop) (Nat.zero_le _)
    hfuel hseg (Copied.makeCons h .nil)
    (fun k a _ hk ha => ⟨by simpa using hk.ne,
      keep_eq (not_hit hend (.inl hk)) (getElem?_elements ha) _⟩) (fun _ _ => by simp)
  obtain ⟨h₂, v₂, splice₂, hloop₂, hseg₂, hcopied₂⟩ := listLoop_run
    (fun index count list => index = stop || null list || count = 0) (replace p new) cnt he h1
    (hfuel.trans_le (Nat.le_add_right ..)) hseg₁ hcopied₁
    (fun k a hk hke ha => ⟨by
      have := hbefore k hk hke
      simp only [null, Bool.or_false, Bool.or_eq_false_iff, decide_eq_false_iff_not, cnt]
      omega, replace_eq hk (by omega) (hbefore k hk hke) (getElem?_elements ha)⟩)
    (fun u _ => by
      rcases hend with rfl | heq
      · simp
      · simp [cnt, heq])
  obtain ⟨h₃, v₃, splice₃, hloop₃, -, hcopied₃⟩ := listLoop_run (fun _ _ list => null list) keep
    (fun _ => cnt e) le_rfl he (hfuel.trans_le (Nat.le_add_right ..)) hseg₂ hcopied₂
    (fun k a hk _ ha => ⟨rfl, keep_eq (not_hit hend (.inr hk)) (getElem?_elements ha) _⟩)
    (fun u hu => by
      rw [List.drop_length] at hu
      cases hu
      rfl)
  rw [show cnt start = limit by simp [cnt, matchesIn_self]] at hloop₂
  rw [Nat.cast_zero] at hloop₁
  rw [listSubstitute]
  simp only [Heap.makeCons_address, hloop₁, hloop₂, hloop₃, andThen]
  exact Copied.cdr hcopied₃

end Lists

section Vectors

variable {p : Value α → Bool} {new : Value α} {s r : TypedVector α} {xs : List (Value α)}
  {left incrementer : ℤ} {start stop fuel i k : ℕ} {limit : ℤ} {g : ℕ → Value α}

/-- The objects `xs` are at the indices from `left` on. -/
structure Visits (s : TypedVector α) (xs : List (Value α)) (left incrementer : ℤ) : Prop where
  length : xs.length = s.elements.length
  moves : incrementer ≠ 0
  inside : ∀ k < xs.length, 0 ≤ left + incrementer * k ∧ left + incrementer * k < xs.length
  aref : ∀ k < xs.length, s.aref (left + incrementer * k) = xs[k]?

/-- The new vector `r`, when `k` elements have been stored. -/
structure Filled (s r : TypedVector α) (left incrementer : ℤ) (g : ℕ → Value α) (k : ℕ) : Prop where
  length : r.elements.length = s.elements.length
  storable : r.storable = s.storable
  aref : ∀ j < k, r.aref (left + incrementer * j) = some (g j)

theorem Filled.step (hs : Visits s xs left incrementer) (hr : Filled s r left incrementer g k)
    (hk : k < xs.length) (hg : s.storable (g k) = true) :
    ∃ r', r.aset (left + incrementer * k) (g k) = some (.ok r') ∧
      Filled s r' left incrementer g (k + 1) := by
  have hg' : r.storable (g k) = true := by rw [hr.storable, hg]
  have hin := hs.inside k hk
  have hlength : r.elements.length = xs.length := hr.length.trans hs.length.symm
  refine ⟨r.set (left + incrementer * k).toNat (g k) hg', ?_, List.length_set.trans hr.length,
    hr.storable, fun j hj => ?_⟩
  · rw [TypedVector.aset, dif_pos hg', if_pos (by rwa [hlength])]
  · have hnonneg := (hs.inside j (by omega)).1
    rw [TypedVector.aref, if_pos hnonneg, TypedVector.set]
    rcases Nat.lt_succ_iff_lt_or_eq.1 hj with hjk | rfl
    · have hne : left + incrementer * k ≠ left + incrementer * j := fun h =>
        hjk.ne' (by exact_mod_cast mul_left_cancel₀ hs.moves (add_left_cancel h))
      have hold := hr.aref j hjk
      rw [TypedVector.aref, if_pos hnonneg] at hold
      rw [List.getElem?_set_ne (by omega), hold]
    · rw [List.getElem?_set_self (by omega)]

/-- A loop over the indices from the visit `i` to the visit `e`. -/
theorem vectorLoop_run (done : ℤ → ℤ → Bool) (f : ℤ → Value α → Value α × ℤ) (cnt : ℕ → ℤ)
    (hs : Visits s xs left incrementer) (hg : ∀ k < xs.length, s.storable (g k) = true) {e : ℕ}
    (he : e ≤ xs.length) (hi : i ≤ e) (hfuel : e - i < fuel)
    (hr : Filled s r left incrementer g i)
    (hround : ∀ k x, i ≤ k → k < e → xs[k]? = some x →
      done (left + incrementer * k) (cnt k) = false ∧ f (cnt k) x = (g k, cnt (k + 1)))
    (hend : done (left + incrementer * e) (cnt e) = true) :
    ∃ r', vectorLoop done f s incrementer fuel (left + incrementer * i) (cnt i) r =
        some (.ok (left + incrementer * e, cnt e, r')) ∧ Filled s r' left incrementer g e := by
  induction fuel generalizing i r with
  | zero => exact absurd hfuel (Nat.not_lt_zero _)
  | succ fuel ih =>
    rcases Nat.eq_or_lt_of_le hi with rfl | hlt
    · exact ⟨r, by rw [vectorLoop, if_pos hend], hr⟩
    have hlt' := hlt.trans_le he
    have hx := List.getElem?_eq_getElem hlt'
    obtain ⟨hdone, hf⟩ := hround i _ le_rfl hlt hx
    obtain ⟨r₁, hset, hr₁⟩ := hr.step hs hlt' (hg i hlt')
    obtain ⟨r', hloop, hr'⟩ := ih hlt (by omega) hr₁ fun k x hk => hround k x (Nat.le_of_succ_le hk)
    refine ⟨r', ?_, hr'⟩
    rw [vectorLoop, if_neg (by simpa using hdone), hs.aref i hlt', hx]
    simp only [hf, hset, andThen]
    rw [← hloop]
    push_cast
    rw [mul_add, mul_one, add_assoc]

/-- The vector version stores the elements of the result. -/
theorem vectorSubstitute_spec (p : Value α → Bool) (new : Value α)
    (hs : Visits s xs left incrementer) (hstart : start ≤ stop)
    (hstop : stop ≤ xs.length) (hlimit : 0 ≤ limit) (hfuel : xs.length < fuel)
    (hg : ∀ k < xs.length, s.storable (outcome p new xs start stop limit k) = true) :
    ∃ r, vectorSubstitute p new fuel s incrementer left (left + incrementer * xs.length)
        (left + incrementer * start) (left + incrementer * stop) limit = some (.ok r) ∧
      Filled s r left incrementer (outcome p new xs start stop limit) xs.length := by
  obtain ⟨e, h1, h2, hbefore, hend⟩ := exists_last (p := p) hstart hstop hlimit
  have he := h2.trans hstop
  have hne {i j : ℕ} (hij : i < j) : left + incrementer * i ≠ left + incrementer * j := fun h =>
    hij.ne (by exact_mod_cast mul_left_cancel₀ hs.moves (add_left_cancel h))
  let cnt (k : ℕ) : ℤ := limit - matchesIn p xs start k
  have hr : Filled s s.makeAlike left incrementer (outcome p new xs start stop limit) 0 :=
    ⟨List.length_replicate, rfl, fun j hj => absurd hj (Nat.not_lt_zero j)⟩
  obtain ⟨r₁, hloop₁, hr₁⟩ := vectorLoop_run
    (fun index _ => index = left + incrementer * start) keep (fun _ => limit) hs hg
    (hstart.trans hstop) (Nat.zero_le _) (show start - 0 < fuel by omega) hr
    (fun k x _ hk hx => ⟨by simpa using hne hk, keep_eq (not_hit hend (.inl hk)) hx _⟩) (by simp)
  obtain ⟨r₂, hloop₂, hr₂⟩ := vectorLoop_run
    (fun index count => index = left + incrementer * stop || count = 0) (replace p new) cnt hs hg he
    h1 (show e - start < fuel by omega) hr₁
    (fun k x hk hke hx => ⟨by
      have := hbefore k hk hke
      have := hne (hke.trans_le h2)
      simp only [Bool.or_eq_false_iff, decide_eq_false_iff_not, cnt]
      omega, replace_eq hk (by omega) (hbefore k hk hke) hx⟩)
    (by
      rcases hend with rfl | heq
      · simp
      · simp [cnt, heq])
  obtain ⟨r₃, hloop₃, hr₃⟩ := vectorLoop_run (fun index _ => index = left + incrementer * xs.length)
    keep (fun _ => cnt e) hs hg le_rfl he (show xs.length - e < fuel by omega) hr₂
    (fun k x hk hke hx => ⟨by simpa using hne hke, keep_eq (not_hit hend (.inr hk)) hx _⟩) (by simp)
  have hcnt : cnt start = limit := by simp [cnt, matchesIn_self]
  rw [hcnt] at hloop₂
  rw [Nat.cast_zero, mul_zero, add_zero] at hloop₁
  refine ⟨r₃, ?_, hr₃⟩
  rw [vectorSubstitute]
  simp only [hloop₁, hloop₂, hloop₃, andThen]

end Vectors

/-! ## The functions are right -/

theorem listLength_spec {h : Heap α} : ∀ {as : List ℕ} {fuel : ℕ} {v : Value α}, as.length < fuel →
    h.Segment v as .nil → listLength h fuel v = some (.ok as.length)
  | [], fuel + 1, _, _, rfl => rfl
  | a :: as, fuel + 1, _, hfuel, ⟨rfl, _, hseg⟩ => by
    rw [listLength, listLength_spec (by simpa using hfuel) hseg]
    rfl

theorem reverse_spec {h0 : Heap α} : ∀ {as bs : List ℕ} {fuel : ℕ} {h : Heap α}
    {v result : Value α}, as.length < fuel → h0.Segment v as .nil → h.Segment result bs .nil →
    (∀ a < h0.next, h.cells a = h0.cells a) → h0.next ≤ h.next → (∀ b ∈ bs, h0.next ≤ b) →
    Appends h0 ((h0.elements as).reverse ++ h.elements bs) .nil (reverse fuel h v result)
  | [], bs, fuel + 1, h, _, result, _, rfl, hresult, hsame, hle, hnew =>
    ⟨h, result, bs, rfl, hresult, rfl, hnew, hle, hsame⟩
  | a :: as, bs, fuel + 1, h, _, result, hfuel, ⟨rfl, ha, hseg⟩, hresult, hsame, hle, hnew => by
    have hold {b : ℕ} (hb : b < h.next) :
        (h.makeCons (h.cells a).car result).1.cells b = h.cells b :=
      Heap.cells_makeCons hb.ne
    have hmade : (h.makeCons (h.cells a).car result).1.Segment (.cons h.next) (h.next :: bs) .nil :=
      ⟨rfl, Nat.lt_succ_self _, by
        rw [Heap.makeCons_self]
        exact Heap.segment_congr (Nat.le_succ _) (fun b hb => by rw [hold (hresult.lt b hb)])
          hresult⟩
    have helements : (h.makeCons (h.cells a).car result).1.elements (h.next :: bs) =
        (h0.cells a).car :: h.elements bs := by
      rw [Heap.elements_cons, Heap.makeCons_self, ← hsame a ha]
      exact congrArg _ (Heap.elements_congr fun b hb => by rw [hold (hresult.lt b hb)])
    have hrest := reverse_spec (by simpa using hfuel) hseg hmade
      (fun b hb => (hold (hb.trans_le hle)).trans (hsame b hb)) (hle.trans (Nat.le_succ _))
      (List.forall_mem_cons.2 ⟨hle, hnew⟩)
    rw [helements] at hrest
    rw [Heap.elements_cons, List.reverse_cons, List.append_assoc, reverse]
    dsimp only [Heap.makeCons_address]
    rw [hsame a ha] at hrest
    rw [hold (ha.trans_le hle), hsame a ha]
    exact hrest

/-- The sequence has the elements `xs`. -/
def Holds (h : Heap α) (xs : List (Value α)) : Sequence α → Prop
  | .list v => ∃ as, h.Segment v as .nil ∧ h.elements as = xs
  | .vector s => s.elements = xs

/-- Vectors have one element type. -/
def SameKind : Sequence α → Sequence α → Prop
  | .list _, .list _ => True
  | .vector s, .vector r => r.storable = s.storable
  | _, _ => False

def Sequence.storable (x : Value α) : Sequence α → Bool
  | .list _ => true
  | .vector s => s.storable x

/-- `xs` with the new item at the positions that the count allows. -/
structure Substituted (p : Value α → Bool) (new : Value α) (fromEnd : Bool) (start stop : ℕ)
    (count : Option ℤ) (xs ys : List (Value α)) : Prop where
  length : ys.length = xs.length
  new : ∀ i < xs.length, Affected p xs fromEnd start stop count i → ys[i]? = some new
  same : ∀ i < xs.length, ¬Affected p xs fromEnd start stop count i → ys[i]? = xs[i]?

/-- The result of a substitution in a copy. -/
def Right (p : Value α → Bool) (new : Value α) (k : Keys (Value α)) (count : Option ℤ) (h : Heap α)
    (s : Sequence α) (xs : List (Value α)) (out : Run α (Sequence α)) : Prop :=
  ∃ h' s' ys, out = some (.ok (h', s')) ∧ Holds h' ys s' ∧ SameKind s s' ∧
    Substituted p new k.fromEnd k.start (k.stop.getD xs.length) count xs ys ∧
    ∀ a < h.next, h'.cells a = h.cells a

section Dispatch

variable {p : Value α → Bool} {new : Value α} {k : Keys (Value α)} {count : Option ℤ} {h : Heap α}
  {xs ys : List (Value α)} {fuel start stop : ℕ}

theorem substituted_of_outcome (hstop : stop ≤ xs.length)
    (hsize : (xs.length : ℤ) ≤ mostPositiveFixnum) (hlength : ys.length = xs.length)
    (h : ∀ i < xs.length, ys[i]? = some (outcome p new xs start stop (realCount count) i)) :
    Substituted p new false start stop count xs ys where
  length := hlength
  new i hi ha := by rw [h i hi, outcome, if_pos ((hit_iff_affected hstop hsize).2 ha)]
  same i hi ha := by
    rw [h i hi, outcome, if_neg (mt (hit_iff_affected hstop hsize).1 ha),
      List.getD_eq_getElem?_getD, List.getElem?_eq_getElem hi, Option.getD_some]

theorem substituted_of_outcome_reverse (hstop : stop ≤ xs.length)
    (hsize : (xs.length : ℤ) ≤ mostPositiveFixnum) (hlength : ys.length = xs.length)
    (h : ∀ i < xs.length, ys[i]? = some (outcome p new xs.reverse (xs.length - stop)
      (xs.length - start) (realCount count) (xs.length - 1 - i))) :
    Substituted p new true start stop count xs ys where
  length := hlength
  new i hi ha := by rw [h i hi, outcome, if_pos ((hit_reverse_iff_affected hstop hi hsize).2 ha)]
  same i hi ha := by
    have hget : xs.reverse[xs.length - 1 - i]? = xs[i]? := by
      rw [List.getElem?_reverse (by omega)]
      congr 1
      omega
    rw [h i hi, outcome, if_neg (mt (hit_reverse_iff_affected hstop hi hsize).1 ha),
      List.getD_eq_getElem?_getD, hget, List.getElem?_eq_getElem hi, Option.getD_some]

theorem storable_outcome {s : TypedVector α} {limit : ℤ} (hxs : ∀ x ∈ xs, s.storable x = true)
    (hnew : s.storable new = true ∨ ∀ i < xs.length, ¬Hit p xs start stop limit i) :
    ∀ i < xs.length, s.storable (outcome p new xs start stop limit i) = true := by
  intro i hi
  rw [outcome]
  split_ifs with hhit
  · exact hnew.resolve_right fun h => h i hi hhit
  · rw [List.getD_eq_getElem?_getD, List.getElem?_eq_getElem hi, Option.getD_some]
    exact hxs _ (List.getElem_mem hi)

variable (hstart : k.start ≤ k.stop.getD xs.length) (hstop : k.stop.getD xs.length ≤ xs.length)
  (hsize : (xs.length : ℤ) ≤ mostPositiveFixnum) (hfuel : xs.length < fuel)

include hstart hstop hsize hfuel

theorem right_list_fromEnd {v : Value α} (hk : k.fromEnd = true) (hxs : Holds h xs (.list v)) :
    Right p new k count h (.list v) xs (substDispatch p new k count fuel h (.list v)) := by
  obtain ⟨as, hseg, rfl⟩ := hxs
  have hlength : (h.elements as).length = as.length := List.length_map _
  rw [hlength] at hstart hstop hfuel
  obtain ⟨h₁, v₁, bs, hrev, hseg₁, helements₁, -, hle₁, hsame₁⟩ := reverse_spec hfuel hseg
    (show h.Segment .nil [] .nil from rfl) (fun _ _ => rfl) le_rfl (by simp)
  have hbs : bs.length = as.length := by simpa [Heap.elements] using congrArg List.length helements₁
  have hstart' : as.length - k.stop.getD as.length ≤ as.length - k.start := by omega
  have hstop' : as.length - k.start ≤ bs.length := by omega
  obtain ⟨h₂, v₂, cs, hsubst, hseg₂, helements₂, hnew₂, -, hsame₂⟩ :=
    listSubstitute_spec p new hseg₁ hstart' hstop' (realCount_nonneg count) (hbs.trans_lt hfuel)
  have hcs : cs.length = as.length := by
    simpa [Heap.elements, hbs] using congrArg List.length helements₂
  obtain ⟨h₃, v₃, ds, hnrev, hseg₃, -, -, helements₃, hsame₃⟩ :=
    nreverse_spec hseg₂ (hcs.trans_lt hfuel)
  refine ⟨h₃, .list v₃, _, ?_, ⟨ds, hseg₃, rfl⟩, trivial, ?_, fun a ha => ?_⟩
  · rw [substDispatch, listLength_spec hfuel hseg]
    simp only [andThen, hk, if_true, hrev]
    rw [← Nat.cast_sub hstop, ← Nat.cast_sub (hstart.trans hstop), hsubst]
    simp only [hnrev]
  · rw [hk, helements₃, helements₂, helements₁, hbs, show h.elements [] = [] from rfl,
      List.append_nil, hlength]
    refine substituted_of_outcome_reverse (hstop.trans_eq hlength.symm) hsize (by simp [hlength])
      fun i hi => ?_
    rw [hlength] at hi ⊢
    rw [List.getElem?_reverse (by simpa using hi), List.getElem?_map, List.length_map,
      List.length_range, List.getElem?_range (by omega), Option.map_some]
  · rw [hsame₃ a fun hmem => absurd (hnew₂ a hmem) (by omega), hsame₂ a (ha.trans_le hle₁),
      hsame₁ a ha]

theorem right_list {v : Value α} (hk : k.fromEnd = false) (hxs : Holds h xs (.list v)) :
    Right p new k count h (.list v) xs (substDispatch p new k count fuel h (.list v)) := by
  obtain ⟨as, hseg, rfl⟩ := hxs
  have hlength : (h.elements as).length = as.length := List.length_map _
  rw [hlength] at hstart hstop hfuel
  obtain ⟨h₁, v₁, bs, hsubst, hseg₁, helements₁, -, -, hsame₁⟩ :=
    listSubstitute_spec p new hseg hstart hstop (realCount_nonneg count) hfuel
  refine ⟨h₁, .list v₁, _, ?_, ⟨bs, hseg₁, rfl⟩, trivial, ?_, hsame₁⟩
  · rw [substDispatch, listLength_spec hfuel hseg]
    simp only [andThen, hk, Bool.false_eq_true, if_false, hsubst]
  · rw [hk, helements₁, hlength]
    refine substituted_of_outcome (hstop.trans_eq hlength.symm) hsize (by simp [hlength])
      fun i hi => ?_
    rw [hlength] at hi
    rw [List.getElem?_map, List.getElem?_range hi, Option.map_some]

theorem right_vector {s : TypedVector α} (hs : s.elements = xs)
    (hnew : s.storable new = true ∨
      ∀ i < xs.length, ¬Affected p xs k.fromEnd k.start (k.stop.getD xs.length) count i) :
    Right p new k count h (.vector s) xs (substDispatch p new k count fuel h (.vector s)) := by
  subst hs
  have hlength : s.elements.reverse.length = s.elements.length := List.length_reverse
  cases hk : k.fromEnd with
  | false =>
    have hs : Visits s s.elements 0 1 := ⟨rfl, one_ne_zero, fun j hj => by omega, fun j hj => by
      rw [TypedVector.aref, if_pos (by omega)]
      congr 1
      omega⟩
    obtain ⟨r, hsubst, hr⟩ := vectorSubstitute_spec p new hs hstart hstop (realCount_nonneg count)
      hfuel (storable_outcome s.stored (hnew.imp_right fun h i hi => by
        rw [hit_iff_affected hstop hsize, ← hk]
        exact h i hi))
    refine ⟨h, .vector r, r.elements, ?_, rfl, hr.storable, ?_, fun _ _ => rfl⟩
    · rw [substDispatch]
      simp only [zero_add, one_mul] at hsubst
      simp only [hk, Bool.false_eq_true, if_false, hsubst, andThen]
    · rw [hk]
      refine substituted_of_outcome hstop hsize hr.length fun i hi => ?_
      have hi' := hr.aref i hi
      rw [TypedVector.aref, if_pos (by omega)] at hi'
      rw [← hi']
      congr 1
      omega
  | true =>
    have hs : Visits s s.elements.reverse (s.elements.length - 1) (-1) := by
      refine ⟨hlength, by norm_num, fun j hj => by omega, fun j hj => ?_⟩
      rw [TypedVector.aref, if_pos (by omega), List.getElem?_reverse (by omega)]
      congr 1
      omega
    have hstart' : s.elements.length - k.stop.getD s.elements.length ≤
        s.elements.length - k.start := by omega
    have hstop' : s.elements.length - k.start ≤ s.elements.reverse.length := by omega
    obtain ⟨r, hsubst, hr⟩ := vectorSubstitute_spec p new hs
      hstart' hstop' (realCount_nonneg count) (hlength.trans_lt hfuel)
      (storable_outcome (fun x hx => s.stored x (List.mem_reverse.1 hx)) (hnew.imp_right
        fun h i hi => by
          rw [show i = s.elements.length - 1 - (s.elements.length - 1 - i) by omega,
            hit_reverse_iff_affected hstop (by omega) hsize, ← hk]
          exact h _ (by omega)))
    refine ⟨h, .vector r, r.elements, ?_, rfl, hr.storable, ?_, fun _ _ => rfl⟩
    · have hmirror (i : ℤ) :
          (s.elements.length : ℤ) - 1 + -1 * (s.elements.length - i) = i - 1 := by ring
      have hright := hmirror 0
      rw [sub_zero, zero_sub] at hright
      rw [hlength, Nat.cast_sub hstop, Nat.cast_sub (hstart.trans hstop), hmirror, hmirror,
        hright] at hsubst
      rw [substDispatch]
      simp only [hk, if_true, hsubst, andThen]
    · rw [hk]
      refine substituted_of_outcome_reverse hstop hsize hr.length fun i hi => ?_
      have hi' := hr.aref (s.elements.length - 1 - i) (by omega)
      rw [TypedVector.aref, if_pos (by omega)] at hi'
      rw [← hi']
      congr 1
      omega

end Dispatch

/-- The function for a test. -/
def substituteBy (new : Value α) (k : Keys (Value α)) (count : Option ℤ) :
    Pred (Value α) → ℕ → Heap α → Sequence α → Run α (Sequence α)
  | .normal old test testNot => substitute new old test testNot k count
  | .ifTest test => substituteIf new test k count
  | .ifNot test => substituteIfNot new test k count

/-- **Substitution is right**: `substitute`, `substitute-if` and `substitute-if-not` replace the
elements that the count allows in a copy, if there are none or the vector can hold the new item. -/
theorem substitute_right (f : Pred (Value α)) (new : Value α) (k : Keys (Value α))
    (count : Option ℤ) {fuel : ℕ} {h : Heap α} {s : Sequence α} {xs : List (Value α)}
    (hxs : Holds h xs s) (hstart : k.start ≤ k.stop.getD xs.length)
    (hstop : k.stop.getD xs.length ≤ xs.length) (hsize : (xs.length : ℤ) ≤ mostPositiveFixnum)
    (hfuel : xs.length < fuel) (hnew : s.storable new = true ∨ ∀ i < xs.length,
      ¬Affected (f.holds k.key) xs k.fromEnd k.start (k.stop.getD xs.length) count i) :
    Right (f.holds k.key) new k count h s xs (substituteBy new k count f fuel h s) := by
  have hright : Right (f.holds k.key) new k count h s xs
      (substDispatch (f.holds k.key) new k count fuel h s) := by
    cases s with
    | list v =>
      cases hk : k.fromEnd with
      | false => exact right_list hstart hstop hsize hfuel hk hxs
      | true => exact right_list_fromEnd hstart hstop hsize hfuel hk hxs
    | vector s => exact right_vector hstart hstop hsize hfuel hxs hnew
  cases f <;> exact hright

/-- A vector of letters. -/
def letters : TypedVector Char where
  elements := [.other 'a', .other 'b', .other 'a']
  storable
    | .other _ => true
    | _ => false
  initial := .other 'a'
  stored := by decide
  initial_stored _ := rfl

theorem substitute_right_letters :
    let f : Pred (Value Char) := .normal (.other 'a') (· = ·) none
    let k : Keys (Value Char) := ⟨true, 0, none, none⟩
    let h : Heap Char := ⟨fun _ => ⟨.nil, .nil⟩, 0⟩
    Right (f.holds k.key) (.other 'c') k (some 1) h (.vector letters) letters.elements
      (substituteBy (.other 'c') k (some 1) f 4 h (.vector letters)) := by
  intro f k h
  exact substitute_right f (.other 'c') k (some 1) rfl (by decide) (by decide) (by decide)
    (by decide) (.inl rfl)

/-- A symbol is not stored in the vector. -/
theorem not_substituted_symbol :
    let f : Pred (Value Char) := .normal (.other 'a') (· = ·) none
    let k : Keys (Value Char) := ⟨false, 0, none, none⟩
    let h : Heap Char := ⟨fun _ => ⟨.nil, .nil⟩, 0⟩
    ¬Right (f.holds k.key) .nil k none h (.vector letters) letters.elements
      (substituteBy .nil k none f 4 h (.vector letters)) := by
  rintro f k h ⟨h', s', ys, hout, -⟩
  have herror : substituteBy .nil k none f 4 h (.vector letters) = some (.error .nil) := rfl
  rw [herror] at hout
  cases hout

end Xcl.Substitute
