import Mathlib.Tactic

/-!
# A heap of conses

* `Value`, `Cons`, `Heap`, with `setCar`, `setCdr` and `makeCons`;
* `Segment`: the conses of a list and what is behind the last one.
-/

namespace Xcl.Conses

variable {α : Type}

/-- `nil`, the address of a cons, or another object. -/
inductive Value (α : Type)
  | nil
  | cons (address : ℕ)
  | other (object : α)
  deriving DecidableEq

theorem Value.nil_ne_cons (a : ℕ) : (.nil : Value α) ≠ .cons a := nofun

theorem Value.other_ne_cons (x : α) (a : ℕ) : (.other x : Value α) ≠ .cons a := nofun

structure Cons (α : Type) where
  car : Value α
  cdr : Value α

/-- The conses, made at the addresses below `next`. -/
structure Heap (α : Type) where
  cells : ℕ → Cons α
  next : ℕ

namespace Heap

def setCar (h : Heap α) (a : ℕ) (v : Value α) : Heap α :=
  { h with cells := Function.update h.cells a ⟨v, (h.cells a).cdr⟩ }

def setCdr (h : Heap α) (a : ℕ) (v : Value α) : Heap α :=
  { h with cells := Function.update h.cells a ⟨(h.cells a).car, v⟩ }

/-- A new cons, with its address. -/
def makeCons (h : Heap α) (car cdr : Value α) : Heap α × ℕ :=
  ({ cells := Function.update h.cells h.next ⟨car, cdr⟩, next := h.next + 1 }, h.next)

/-- The objects in some conses. -/
def elements (h : Heap α) (addresses : List ℕ) : List (Value α) :=
  addresses.map fun a => (h.cells a).car

variable {h h' : Heap α} {a b : ℕ} {u v w : Value α} {as bs : List ℕ}

@[simp] theorem next_setCar : (h.setCar a v).next = h.next := rfl
@[simp] theorem next_setCdr : (h.setCdr a v).next = h.next := rfl

@[simp] theorem cdr_setCar : ((h.setCar a v).cells b).cdr = (h.cells b).cdr := by
  by_cases hb : b = a <;> simp [setCar, hb]

@[simp] theorem car_setCdr : ((h.setCdr a v).cells b).car = (h.cells b).car := by
  by_cases hb : b = a <;> simp [setCdr, hb]

@[simp] theorem car_setCar_self : ((h.setCar a v).cells a).car = v := by
  simp [setCar]

@[simp] theorem cdr_setCdr_self : ((h.setCdr a v).cells a).cdr = v := by
  simp [setCdr]

theorem cells_setCar (hb : b ≠ a) : (h.setCar a v).cells b = h.cells b :=
  Function.update_of_ne hb ..

theorem cells_setCdr (hb : b ≠ a) : (h.setCdr a v).cells b = h.cells b :=
  Function.update_of_ne hb ..

theorem cells_makeCons (hb : b ≠ h.next) : (h.makeCons u v).1.cells b = h.cells b :=
  Function.update_of_ne hb ..

@[simp] theorem makeCons_address : (h.makeCons u v).2 = h.next := rfl

@[simp] theorem makeCons_self : (h.makeCons u v).1.cells h.next = ⟨u, v⟩ := Function.update_self ..

theorem setCdr_self (hv : (h.cells a).cdr = v) : h.setCdr a v = h := by
  rw [setCdr, ← hv, Function.update_eq_self]

theorem elements_congr (hsame : ∀ a ∈ as, (h'.cells a).car = (h.cells a).car) :
    h'.elements as = h.elements as :=
  List.map_congr_left hsame

theorem elements_cons (h : Heap α) (a : ℕ) (as : List ℕ) :
    h.elements (a :: as) = (h.cells a).car :: h.elements as := rfl

theorem elements_append (h : Heap α) (as bs : List ℕ) :
    h.elements (as ++ bs) = h.elements as ++ h.elements bs :=
  List.map_append

@[simp] theorem elements_setCdr : (h.setCdr a v).elements as = h.elements as :=
  elements_congr fun _ _ => car_setCdr

/-- The conses from `v` on, up to where `w` is the rest. -/
def Segment (h : Heap α) : Value α → List ℕ → Value α → Prop
  | v, [], w => v = w
  | v, a :: as, w => v = .cons a ∧ a < h.next ∧ h.Segment (h.cells a).cdr as w

theorem segment_append : ∀ {as : List ℕ} {v : Value α},
    h.Segment v (as ++ bs) w ↔ ∃ u, h.Segment v as u ∧ h.Segment u bs w
  | [], v => by simp only [List.nil_append, Segment, exists_eq_left']
  | a :: as, v => by
    simp only [List.cons_append, Segment, segment_append]
    constructor
    · rintro ⟨hv, ha, u, has, hbs⟩
      exact ⟨u, ⟨hv, ha, has⟩, hbs⟩
    · rintro ⟨u, ⟨hv, ha, has⟩, hbs⟩
      exact ⟨hv, ha, u, has, hbs⟩

theorem segment_congr (hnext : h.next ≤ h'.next) : ∀ {as : List ℕ} {v : Value α},
    (∀ a ∈ as, (h'.cells a).cdr = (h.cells a).cdr) → h.Segment v as w → h'.Segment v as w
  | [], _, _, hseg => hseg
  | a :: as, v, hsame, hseg => by
    refine ⟨hseg.1, hseg.2.1.trans_le hnext, ?_⟩
    rw [hsame a List.mem_cons_self]
    exact segment_congr hnext (fun b hb => hsame b (List.mem_cons_of_mem _ hb)) hseg.2.2

theorem Segment.exists_cons (hseg : h.Segment v (as ++ [a]) w) : ∃ b, v = .cons b := by
  cases as with
  | nil => exact ⟨a, hseg.1⟩
  | cons b _ => exact ⟨b, hseg.1⟩

theorem Segment.lt (hseg : h.Segment v as w) : ∀ a ∈ as, a < h.next := by
  induction as generalizing v with
  | nil => exact fun a ha => absurd ha List.not_mem_nil
  | cons b as ih =>
    intro a ha
    rcases List.mem_cons.1 ha with rfl | ha
    · exact hseg.2.1
    · exact ih hseg.2.2 a ha

/-- The conses are given by the first and the end, if that is none. -/
theorem segment_unique (hw : ∀ a, w ≠ .cons a) : ∀ {as bs : List ℕ} {v : Value α},
    h.Segment v as w → h.Segment v bs w → as = bs
  | [], [], _, _, _ => rfl
  | [], b :: _, _, has, hbs => absurd (has.symm.trans hbs.1) (hw b)
  | a :: _, [], _, has, hbs => absurd (hbs.symm.trans has.1) (hw a)
  | a :: as, b :: bs, v, has, hbs => by
    obtain ⟨rfl, -, has⟩ := has
    obtain ⟨hab, -, hbs⟩ := hbs
    cases hab
    rw [segment_unique hw has hbs]

theorem segment_nodup (hw : ∀ a, w ≠ .cons a) : ∀ {as : List ℕ} {v : Value α},
    h.Segment v as w → as.Nodup
  | [], _, _ => List.nodup_nil
  | a :: as, v, hseg => by
    refine List.nodup_cons.2 ⟨fun ha => ?_, segment_nodup hw hseg.2.2⟩
    obtain ⟨before, after, rfl⟩ := List.append_of_mem ha
    obtain ⟨u, -, hagain⟩ := segment_append.1 hseg.2.2
    have heq := segment_unique hw hseg.2.2 hagain.2.2
    have hlength := congrArg List.length heq
    simp only [List.length_append, List.length_cons] at hlength
    omega

theorem segment_setCdr (ha : a ∉ as) (hseg : h.Segment v (as ++ [a]) w) :
    (h.setCdr a u).Segment v (as ++ [a]) u := by
  obtain ⟨t, has, hlast⟩ := segment_append.1 hseg
  have hsame : ∀ b ∈ as, ((h.setCdr a u).cells b).cdr = (h.cells b).cdr := fun b hb => by
    rw [cells_setCdr fun hba => ha (by rwa [← hba])]
  exact segment_append.2 ⟨t, segment_congr (Nat.le_of_eq next_setCdr.symm) hsame has, hlast.1,
    hlast.2.1, cdr_setCdr_self⟩

end Heap

end Xcl.Conses
