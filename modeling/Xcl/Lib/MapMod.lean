import Mathlib.Data.List.Perm.Basic
import Mathlib.Data.List.Pairwise
import Mathlib.Tactic

/-!
# Finite maps modulo a test

A finite map whose keys are compared by an equivalence `test` is a function that respects the
test. A list of associations with pairwise inequivalent keys represents it.

* `Lawful`: the test is an equivalence relation;
* `put`, `remove`: updating such a map.
-/

namespace Xcl.MapMod

variable {κ ν : Type*}

structure Lawful (test : κ → κ → Bool) : Prop where
  refl : ∀ a, test a a = true
  symm : ∀ {a b}, test a b = true → test b a = true
  trans : ∀ {a b c}, test a b = true → test b c = true → test a c = true

/-- The map `m` with `v` under every key equivalent to `k`. -/
def put (test : κ → κ → Bool) (m : κ → Option ν) (k : κ) (v : ν) : κ → Option ν :=
  fun k' => if test k' k then some v else m k'

/-- The map `m` with nothing under the keys equivalent to `k`. -/
def remove (test : κ → κ → Bool) (m : κ → Option ν) (k : κ) : κ → Option ν :=
  fun k' => if test k' k then none else m k'

/-- The associations `l` are those of the map `m`, one for each key. -/
structure Represents (test : κ → κ → Bool) (l : List (κ × ν)) (m : κ → Option ν) : Prop where
  distinct : l.Pairwise fun x y => test x.1 y.1 = false
  content : ∀ k v, m k = some v ↔ ∃ x ∈ l, test k x.1 = true ∧ x.2 = v

variable {test : κ → κ → Bool} {l l₁ l₂ r : List (κ × ν)} {m : κ → Option ν} {k k' : κ} {v v' : ν}

theorem Lawful.comm (ht : Lawful test) (a b : κ) : test a b = test b a := by
  rw [Bool.eq_iff_iff]
  exact ⟨ht.symm, ht.symm⟩

theorem Lawful.congr_left (ht : Lawful test) {a b : κ} (h : test a b = true) (c : κ) :
    test a c = test b c := by
  rw [Bool.eq_iff_iff]
  exact ⟨fun hac => ht.trans (ht.symm h) hac, fun hbc => ht.trans h hbc⟩

theorem Lawful.congr_right (ht : Lawful test) {a b : κ} (h : test a b = true) (c : κ) :
    test c a = test c b := by
  rw [ht.comm c, ht.comm c, ht.congr_left h]

theorem represents_nil : Represents test ([] : List (κ × ν)) fun _ => none :=
  ⟨.nil, by simp⟩

theorem Represents.perm (ht : Lawful test) (h : Represents test l₁ m) (hp : l₁.Perm l₂) :
    Represents test l₂ m where
  distinct := (hp.pairwise_iff fun {x y} hxy => by rwa [ht.comm]).mp h.distinct
  content k v := by simp only [h.content, hp.mem_iff]

theorem Represents.eq_none (h : Represents test l m) (hk : ∀ x ∈ l, test k x.1 = false) :
    m k = none := by
  cases hm : m k with
  | none => rfl
  | some v =>
    obtain ⟨x, hx, hkx, -⟩ := (h.content k v).mp hm
    rw [hk x hx] at hkx
    exact absurd hkx (by simp)

/-- The association found under `k` is what the map holds there. -/
theorem Represents.eq_some (h : Represents test l m) {x : κ × ν} (hx : x ∈ l)
    (hk : test k x.1 = true) : m k = some x.2 :=
  (h.content k x.2).mpr ⟨x, hx, hk, rfl⟩

/-- **Adding a new key.** -/
theorem Represents.cons (ht : Lawful test) (h : Represents test l m)
    (hk : ∀ x ∈ l, test k x.1 = false) : Represents test ((k, v) :: l) (put test m k v) where
  distinct := List.pairwise_cons.mpr ⟨hk, h.distinct⟩
  content a w := by
    simp only [put]
    split_ifs with hak
    · constructor
      · rintro ⟨⟩
        exact ⟨_, List.mem_cons_self, hak, rfl⟩
      · rintro ⟨x, hx, hax, rfl⟩
        rcases List.mem_cons.mp hx with rfl | hx
        · rfl
        · rw [ht.congr_left hak, hk x hx] at hax
          exact absurd hax (by simp)
    · rw [h.content]
      constructor
      · rintro ⟨x, hx, hax⟩
        exact ⟨x, List.mem_cons_of_mem _ hx, hax⟩
      · rintro ⟨x, hx, hax, rfl⟩
        rcases List.mem_cons.mp hx with rfl | hx
        · exact absurd hax hak
        · exact ⟨x, hx, hax, rfl⟩

/-- **Removing a key.** -/
theorem Represents.erase (ht : Lawful test) (h : Represents test (l ++ (k', v') :: r) m)
    (hk : test k k' = true) : Represents test (l ++ r) (remove test m k) := by
  have hp : (l ++ (k', v') :: r).Perm ((k', v') :: (l ++ r)) := List.perm_middle
  have h := h.perm ht hp
  obtain ⟨hno, hd⟩ := List.pairwise_cons.mp h.distinct
  refine ⟨hd, fun a w => ?_⟩
  simp only [remove]
  split_ifs with hak
  · simp only [false_iff]
    rintro ⟨x, hx, hax, -⟩
    have hk'x := hno x hx
    rw [← ht.congr_left hk, ← ht.congr_left hak, hax] at hk'x
    exact absurd hk'x (by simp)
  · rw [h.content]
    constructor
    · rintro ⟨x, hx, hax, rfl⟩
      rcases List.mem_cons.mp hx with rfl | hx
      · rw [← ht.congr_right hk] at hax
        exact absurd hax hak
      · exact ⟨x, hx, hax, rfl⟩
    · rintro ⟨x, hx, hax⟩
      exact ⟨x, List.mem_cons_of_mem _ hx, hax⟩

/-- **Replacing the value of a key.** The key that is kept need not be the one that is put. -/
theorem Represents.replace (ht : Lawful test) (h : Represents test (l ++ (k', v') :: r) m)
    (hk : test k k' = true) : Represents test (l ++ (k', v) :: r) (put test m k v) := by
  have he := h.erase ht hk
  have hno : ∀ x ∈ l ++ r, test k' x.1 = false :=
    (List.pairwise_cons.mp (h.perm ht List.perm_middle).distinct).1
  have hput : put test (remove test m k) k' v = put test m k v := by
    funext a
    simp only [put, remove, ht.congr_right hk]
    split_ifs <;> rfl
  rw [← hput]
  exact (he.cons ht hno).perm ht List.perm_middle.symm

theorem Represents.remove_eq (ht : Lawful test) (h : Represents test l m)
    (hk : ∀ x ∈ l, test k x.1 = false) : remove test m k = m := by
  funext a
  simp only [remove]
  split_ifs with hak
  · exact (h.eq_none fun x hx => by rw [ht.congr_left hak, hk x hx]).symm
  · rfl

end Xcl.MapMod
