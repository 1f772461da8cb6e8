import Mathlib.Logic.Function.Basic
import Mathlib.Tactic

/-!
# Lexical and dynamic bindings

Computations in a language with variables of two kinds: lexical variables, which are cells that an
environment names, and special variables, whose dynamic bindings end with the form that makes them.

* `withCell`, `withSpecial`, `withVariable`: a form in the scope of one binding.
-/

namespace Xcl.Binding

/-- What a name stands for: a lexical variable or the special variable of that name. -/
inductive Place
  | cell (n : ℕ)
  | special
  deriving DecidableEq

/-- The names that have been bound or declared special. -/
abbrev Env (Symbol : Type) := Symbol → Option Place

structure State (Symbol Value World : Type) where
  dynamic : Symbol → Option Value
  cells : ℕ → Option Value
  next : ℕ
  world : World

abbrev Computation (Symbol Value World Exit α : Type) :=
  State Symbol Value World → Except Exit α × State Symbol Value World

variable {Symbol Value World Exit α β : Type} [DecidableEq Symbol]

/-- One computation after another one, unless there is an exit. -/
def andThen (c : Computation Symbol Value World Exit α)
    (f : α → Computation Symbol Value World Exit β) : Computation Symbol Value World Exit β :=
  fun s =>
    match c s with
    | (.ok a, s') => f a s'
    | (.error e, s') => (.error e, s')

/-- A new cell. -/
def withCell (value : Value) (body : ℕ → Computation Symbol Value World Exit α) :
    Computation Symbol Value World Exit α := fun s =>
  body s.next { s with cells := Function.update s.cells s.next (some value), next := s.next + 1 }

/-- A dynamic binding, which ends with the body. -/
def withSpecial (name : Symbol) (value : Value) (body : Computation Symbol Value World Exit α) :
    Computation Symbol Value World Exit α := fun s =>
  let (result, s') :=
    body { s with dynamic := Function.update s.dynamic name (some value) }
  (result, { s' with dynamic := Function.update s'.dynamic name (s.dynamic name) })

/-- The binding of a variable of one of the two kinds. -/
def withVariable (special : Bool) (name : Symbol) (value : Value) (env : Env Symbol)
    (body : Env Symbol → Computation Symbol Value World Exit α) :
    Computation Symbol Value World Exit α :=
  if special then withSpecial name value (body (Function.update env name (some .special)))
  else withCell value fun n => body (Function.update env name (some (.cell n)))

/-- Bindings one after the other. -/
def bindStar {Form : Type} (ev : Form → Env Symbol → Computation Symbol Value World Exit Value)
    (special : Symbol → Bool) : List (Symbol × Form) → Env Symbol →
    (Env Symbol → Computation Symbol Value World Exit α) → Computation Symbol Value World Exit α
  | [], env, body => body env
  | (name, init) :: vars, env, body =>
    andThen (ev init env) fun value =>
      withVariable (special name) name value env fun env => bindStar ev special vars env body

@[simp] theorem withSpecial_world (name : Symbol) (value : Value)
    (body : Computation Symbol Value World Exit α) (s : State Symbol Value World) :
    (withSpecial name value body s).2.world =
      (body { s with dynamic := Function.update s.dynamic name (some value) }).2.world := rfl

theorem exists_withVariable_world (special : Bool) (name : Symbol) (value : Value)
    (env : Env Symbol) (body : Env Symbol → Computation Symbol Value World Exit α)
    (s : State Symbol Value World) :
    ∃ (env' : Env Symbol) (s' : State Symbol Value World), s'.world = s.world ∧
      (withVariable special name value env body s).2.world = (body env' s').2.world := by
  cases special with
  | true =>
    exact ⟨Function.update env name (some .special),
      { s with dynamic := Function.update s.dynamic name (some value) }, rfl, rfl⟩
  | false =>
    exact ⟨Function.update env name (some (.cell s.next)),
      { s with cells := Function.update s.cells s.next (some value), next := s.next + 1 }, rfl, rfl⟩

section Rules

variable {Form : Type} {ev : Form → Env Symbol → Computation Symbol Value World Exit Value}

theorem bindStar_append (special : Symbol → Bool) (vars vars' : List (Symbol × Form))
    (env : Env Symbol) (body : Env Symbol → Computation Symbol Value World Exit α) :
    bindStar ev special (vars ++ vars') env body =
      bindStar ev special vars env fun env => bindStar ev special vars' env body := by
  induction vars generalizing env with
  | nil => rfl
  | cons var vars ih =>
    obtain ⟨name, init⟩ := var
    simp only [List.cons_append, bindStar, ih]

theorem bindStar_congr {special special' : Symbol → Bool} {vars : List (Symbol × Form)}
    (h : ∀ var ∈ vars, special var.1 = special' var.1) (env : Env Symbol)
    (body : Env Symbol → Computation Symbol Value World Exit α) :
    bindStar ev special vars env body = bindStar ev special' vars env body := by
  induction vars generalizing env with
  | nil => rfl
  | cons var vars ih =>
    obtain ⟨name, init⟩ := var
    simp only [bindStar, h (name, init) List.mem_cons_self,
      ih fun var hvar => h var (List.mem_cons_of_mem _ hvar)]

end Rules

end Xcl.Binding
