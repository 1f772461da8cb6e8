import Mathlib.Tactic

/-!
# Lists of cells in memory

* `Cell`, `Chain`: the addresses of the cells of a list that ends properly.
-/

namespace Xcl

variable {α : Type}

/-- A cell with an element and the address of the next cell, if there is one. -/
structure Cell (α : Type) where
  car : α
  cdr : Option ℕ

abbrev Cells (α : Type) := ℕ → Cell α

/-- The addresses of the cells that are linked from a given one on. -/
def Chain (mem : Cells α) : Option ℕ → List ℕ → Prop
  | none, [] => True
  | some a, b :: rest => a = b ∧ Chain mem (mem a).cdr rest
  | _, _ => False

def Cells.elements (mem : Cells α) (addresses : List ℕ) : List α :=
  addresses.map fun a => (mem a).car

variable {mem : Cells α}

theorem chain_nil {link : Option ℕ} (h : Chain mem link []) : link = none := by
  cases link with
  | none => rfl
  | some _ => exact h.elim

theorem chain_cons {link : Option ℕ} {a : ℕ} {rest : List ℕ} (h : Chain mem link (a :: rest)) :
    link = some a ∧ Chain mem (mem a).cdr rest := by
  cases link with
  | none => exact h.elim
  | some b =>
    obtain ⟨rfl, h⟩ := h
    exact ⟨rfl, h⟩

theorem chain_update {a : ℕ} {cell : Cell α} : ∀ {link : Option ℕ} {addresses : List ℕ},
    a ∉ addresses → (Chain (Function.update mem a cell) link addresses ↔ Chain mem link addresses)
  | none, [], _ => Iff.rfl
  | none, _ :: _, _ => Iff.rfl
  | some _, [], _ => Iff.rfl
  | some b, c :: rest, h => by
    rw [List.mem_cons, not_or] at h
    refine and_congr_right fun hbc => ?_
    rw [Function.update_of_ne (by rw [hbc]; exact Ne.symm h.1)]
    exact chain_update h.2

theorem elements_update {a : ℕ} {cell : Cell α} {addresses : List ℕ} (h : a ∉ addresses) :
    Cells.elements (Function.update mem a cell) addresses = mem.elements addresses := by
  refine List.map_congr_left fun b hb => ?_
  have hne : b ≠ a := fun hba => h (by rwa [← hba])
  rw [Function.update_of_ne hne]

theorem elements_split (mem : Cells α) (first : List ℕ) (a : ℕ) (rest : List ℕ) :
    mem.elements (first ++ a :: rest) = mem.elements first ++ (mem a).car :: mem.elements rest := by
  simp only [Cells.elements, List.map_append, List.map_cons]

theorem chain_append {a : ℕ} {rest : List ℕ} : ∀ {first : List ℕ} {link : Option ℕ},
    Chain mem link (first ++ a :: rest) → Chain mem (some a) (a :: rest)
  | [], none, h => h.elim
  | [], some _, h => by
    obtain ⟨rfl, h⟩ := h
    exact ⟨rfl, h⟩
  | _ :: _, none, h => h.elim
  | _ :: first, some _, h => @chain_append a rest first _ h.2

theorem chain_replace {mem' : Cells α} {rest rest' : List ℕ} {a : ℕ} :
    ∀ {first : List ℕ} {link : Option ℕ}, (∀ b ∈ first, mem' b = mem b) →
      Chain mem link (first ++ a :: rest) → Chain mem' (some a) (a :: rest') →
        Chain mem' link (first ++ a :: rest')
  | [], none, _, h, _ => h.elim
  | [], some _, _, h, h' => by
    obtain ⟨rfl, -⟩ := h
    exact h'
  | _ :: _, none, _, h, _ => h.elim
  | b :: first, some _, hsame, h, h' => by
    obtain ⟨rfl, h⟩ := h
    refine ⟨rfl, ?_⟩
    rw [hsame _ List.mem_cons_self]
    exact chain_replace (fun c hc => hsame c (List.mem_cons_of_mem _ hc)) h h'

theorem chain_congr {mem' : Cells α} : ∀ {link : Option ℕ} {addresses : List ℕ},
    (∀ a ∈ addresses, mem' a = mem a) → Chain mem link addresses → Chain mem' link addresses
  | none, [], _, _ => trivial
  | none, _ :: _, _, h => h
  | some _, [], _, h => h
  | some b, c :: rest, hsame, h => by
    obtain ⟨rfl, h⟩ := h
    refine ⟨rfl, ?_⟩
    rw [hsame b List.mem_cons_self]
    exact chain_congr (fun a ha => hsame a (List.mem_cons_of_mem _ ha)) h

theorem chain_unique : ∀ {link : Option ℕ} {addresses addresses' : List ℕ},
    Chain mem link addresses → Chain mem link addresses' → addresses = addresses'
  | none, [], [], _, _ => rfl
  | none, _ :: _, _, h, _ => h.elim
  | none, _, _ :: _, _, h => h.elim
  | some _, [], _, h, _ => h.elim
  | some _, _, [], _, h => h.elim
  | some _, _ :: _, _ :: _, h, h' => by
    obtain ⟨rfl, h⟩ := h
    obtain ⟨rfl, h'⟩ := h'
    rw [chain_unique h h']

end Xcl
