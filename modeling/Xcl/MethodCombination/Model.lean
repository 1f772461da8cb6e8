import Xcl.MethodCombination.Sort

/-!
# Standard method combination

* `Objects`, `Specializer`, `Method`, `GenericFunction`: what the functions see; a generic function
  carries what `%add-method` and `canonicalize-argument-precedence-order` take care of.
-/

namespace Xcl.MethodCombination

/-! ## Data -/

structure Objects (Obj Cls : Type) where
  classOf : Obj → Cls
  precedenceList : Cls → List Cls
  nodup : ∀ c, (precedenceList c).Nodup

/-- A class or an interned EQL specializer, of which there is one for an object up to `eql`. Objects
are equal if they are `eql`. -/
inductive Specializer (Obj Cls : Type)
  | cls (c : Cls)
  | eql (object : Obj)
  deriving DecidableEq

inductive Qualifier
  | before
  | after
  | around
  | other (name : String)
  deriving DecidableEq, Repr

structure Method (Obj Cls : Type) where
  id : ℕ
  qualifiers : List Qualifier
  specializers : List (Specializer Obj Cls)
  deriving DecidableEq, Inhabited

/-- `find-method` finds the one for the other. -/
def Method.Same {Obj Cls : Type} (m m' : Method Obj Cls) : Prop :=
  m.qualifiers = m'.qualifiers ∧ m.specializers = m'.specializers

instance {Obj Cls : Type} [DecidableEq Obj] [DecidableEq Cls] (m m' : Method Obj Cls) :
    Decidable (m.Same m') := inferInstanceAs (Decidable (_ ∧ _))

structure GenericFunction (Obj Cls : Type) where
  minargs : ℕ
  argumentPrecedenceOrder : List ℕ
  methods : List (Method Obj Cls)
  order : argumentPrecedenceOrder = [] ∨ argumentPrecedenceOrder.Perm (List.range minargs)
  lengths : ∀ m ∈ methods, m.specializers.length = minargs
  different : methods.Pairwise fun m m' => ¬m.Same m'

inductive Error
  | wrongNumberOfArguments
  | argumentPrecedenceOrder
  | invalidMethodQualifiers
  | noPrimaryMethod
  deriving DecidableEq, Repr

/-! ## Generic functions -/

/-- The loop of `canonicalize-argument-precedence-order`. -/
def positions (req : List String) : List String → List ℕ → Except Error (List ℕ)
  | [], res => .ok res.reverse
  | arg :: apo, res =>
    match req.findIdx? (· = arg) with
    | none => .error .argumentPrecedenceOrder
    | some index =>
      if index ∈ res then .error .argumentPrecedenceOrder else positions req apo (index :: res)

def canonicalizeArgumentPrecedenceOrder (apo req : List String) : Except Error (List ℕ) :=
  if apo = req then .ok []
  else if apo.length ≠ req.length then .error .argumentPrecedenceOrder
  else positions req apo []

theorem positions_spec {req apo : List String} {res order : List ℕ}
    (h : positions req apo res = .ok order) (hres : res.Nodup) (hlt : ∀ i ∈ res, i < req.length) :
    order.Nodup ∧ (∀ i ∈ order, i < req.length) ∧ order.length = res.length + apo.length := by
  fun_induction positions req apo res with
  | case1 res =>
    cases h
    simpa [hres] using hlt
  | case2 => cases h
  | case3 => cases h
  | case4 arg apo res index hindex hnew ih =>
    obtain ⟨hfound, -⟩ := List.findIdx?_eq_some_iff_getElem.mp hindex
    obtain ⟨hnodup, hlt', hlength⟩ := ih h (List.nodup_cons.mpr ⟨hnew, hres⟩)
      (List.forall_mem_cons.mpr ⟨hfound, hlt⟩)
    refine ⟨hnodup, hlt', ?_⟩
    rw [hlength, List.length_cons, List.length_cons]
    omega

theorem canonicalize_order {apo req : List String} {order : List ℕ}
    (h : canonicalizeArgumentPrecedenceOrder apo req = .ok order) :
    order = [] ∨ order.Perm (List.range req.length) := by
  unfold canonicalizeArgumentPrecedenceOrder at h
  split_ifs at h with hsame hlength
  · cases h
    exact .inl rfl
  · obtain ⟨hnodup, hlt, hcount⟩ := positions_spec h List.nodup_nil (by simp)
    refine .inr (List.Subperm.perm_of_length_le ?_ ?_)
    · exact List.subperm_of_subset hnodup fun i hi => List.mem_range.mpr (hlt i hi)
    · rw [hcount, List.length_range, List.length_nil]
      push Not at hlength
      omega

section Functions

variable {Obj Cls : Type}

/-- `make-instance-standard-generic-function`, as to the arguments: the required ones, and the
argument precedence order or nothing. -/
def makeGenericFunction (requiredArgs argumentPrecedenceOrder : List String) :
    Except Error (GenericFunction Obj Cls) :=
  if argumentPrecedenceOrder = [] then
    .ok ⟨requiredArgs.length, [], [], .inl rfl, by simp, .nil⟩
  else
    match h : canonicalizeArgumentPrecedenceOrder argumentPrecedenceOrder requiredArgs with
    | .error e => .error e
    | .ok order => .ok ⟨requiredArgs.length, order, [], canonicalize_order h, by simp, .nil⟩

variable [DecidableEq Obj] [DecidableEq Cls]

/-- `%add-method`: the old method with the same qualifiers and specializers is removed. -/
def addMethod (gf : GenericFunction Obj Cls) (m : Method Obj Cls)
    (h : m.specializers.length = gf.minargs) : GenericFunction Obj Cls where
  minargs := gf.minargs
  argumentPrecedenceOrder := gf.argumentPrecedenceOrder
  methods := m :: gf.methods.filter fun old => ¬m.Same old
  order := gf.order
  lengths m' hm' := by
    rcases List.mem_cons.mp hm' with rfl | hm'
    · exact h
    · exact gf.lengths m' (List.mem_of_mem_filter hm')
  different := List.pairwise_cons.mpr ⟨fun m' hm' => by simpa using (List.mem_filter.mp hm').2,
    gf.different.filter _⟩

/-! ## Applicable methods -/

variable (w : Objects Obj Cls) (gf : GenericFunction Obj Cls)

def requiredClasses (args : List Obj) : Except Error (List Cls) :=
  if args.length < gf.minargs then .error .wrongNumberOfArguments
  else .ok ((args.take gf.minargs).map w.classOf)

def subclassp (c specializer : Cls) : Bool := specializer ∈ w.precedenceList c

/-- `method-applicable-p`. There are at least as many arguments as specializers, which
`required-classes` has seen to. -/
def methodApplicableP : List (Specializer Obj Cls) → List Obj → Bool
  | [], _ => true
  | _ :: _, [] => false
  | .eql object :: specializers, arg :: args => arg = object && methodApplicableP specializers args
  | .cls c :: specializers, arg :: args =>
    subclassp w (w.classOf arg) c && methodApplicableP specializers args

def subSpecializerP (spec1 spec2 c : Cls) : Bool :=
  spec2 ∈ ((w.precedenceList c).dropWhile (· ≠ spec1)).tail

/-- The loops of `std-method-more-specific-p`. -/
def moreSpecificFrom : List (Specializer Obj Cls × Specializer Obj Cls × Cls) → Bool
  | [] => false
  | (spec1, spec2, c) :: rest =>
    if spec1 = spec2 then moreSpecificFrom rest
    else
      match spec1, spec2 with
      | .eql _, _ => true
      | _, .eql _ => false
      | .cls c1, .cls c2 => subSpecializerP w c1 c2 c

def stdMethodMoreSpecificP (m1 m2 : Method Obj Cls) (requiredClasses : List Cls)
    (argumentPrecedenceOrder : List ℕ) : Bool :=
  let triples := m1.specializers.zip (m2.specializers.zip requiredClasses)
  moreSpecificFrom w
    (if argumentPrecedenceOrder ≠ [] then argumentPrecedenceOrder.filterMap (triples[·]?)
    else triples)

def computeApplicableMethods (args : List Obj) : Except Error (List (Method Obj Cls)) :=
  match requiredClasses w gf args with
  | .error e => .error e
  | .ok classes =>
    let methods := (gf.methods.filter fun m => methodApplicableP w m.specializers args).reverse
    match methods with
    | [] => .ok []
    | [m] => .ok [m]
    | methods =>
      .ok (sort (fun m1 m2 => stdMethodMoreSpecificP w m1 m2 classes gf.argumentPrecedenceOrder)
        methods)

end Functions

/-! ## The effective method -/

mutual

inductive Form (M : Type)
  | callMethod (method : M) (nextMethods : NextMethods M)
  /-- What `make-call-methods` makes. -/
  | callMethodList (methods : List M)
  | progn (first second : Form M)
  | multipleValueProg1 (first rest : Form M)

/-- A list of next methods: methods, and lists that begin with `make-method`. -/
inductive NextMethods (M : Type)
  | nil
  | method (method : M) (rest : NextMethods M)
  | makeMethod (form : Form M) (rest : NextMethods M)

end

/-- Methods in front of other next methods. -/
def NextMethods.append {M : Type} (methods : List M) (rest : NextMethods M) : NextMethods M :=
  methods.foldr .method rest

/-- The lists of `compute-standard-effective-method`. -/
structure Lists (M : Type) where
  befores : List M
  primaries : List M
  afters : List M
  arounds : List M

section EffectiveMethod

variable {Obj Cls : Type}

def pushMethods : List (Method Obj Cls) → Lists (Method Obj Cls) →
    Except Error (Lists (Method Obj Cls))
  | [], lists => .ok lists
  | m :: methods, lists =>
    match m.qualifiers with
    | [] => pushMethods methods { lists with primaries := m :: lists.primaries }
    | [.before] => pushMethods methods { lists with befores := m :: lists.befores }
    | [.after] => pushMethods methods { lists with afters := m :: lists.afters }
    | [.around] => pushMethods methods { lists with arounds := m :: lists.arounds }
    | _ => .error .invalidMethodQualifiers

def computeStandardEffectiveMethod (methods : List (Method Obj Cls)) :
    Except Error (Form (Method Obj Cls)) :=
  match pushMethods methods ⟨[], [], [], []⟩ with
  | .error e => .error e
  | .ok lists =>
    match lists.primaries.reverse with
    | [] => .error .noPrimaryMethod
    | primary :: primaries =>
      let befores := lists.befores.reverse
      let afters := lists.afters.reverse
      let main :=
        if befores = [] ∧ afters = [] ∧ lists.arounds = [] then
          Form.callMethod primary (.append primaries .nil)
        else
          .multipleValueProg1
            (.progn (.callMethodList befores) (.callMethod primary (.append primaries .nil)))
            (.callMethodList afters.reverse)
      match lists.arounds.reverse with
      | around :: arounds => .ok (.callMethod around (.append arounds (.makeMethod main .nil)))
      | [] => .ok main

end EffectiveMethod

/-! ## What a form does -/

section Eval

variable {M : Type} {m : Type → Type} [Monad m] {β : Type}

/-- The functions of the methods, for the arguments of the call: what a method does, given what
`call-next-method` does in it, where there is a next method. -/
abbrev MethodFunction (M : Type) (m : Type → Type) (β : Type) := M → Option (m β) → m β

variable (methodFunction : MethodFunction M m β) (nil : β)

mutual

def Form.eval : Form M → m β
  | .callMethod method nextMethods => methodFunction method nextMethods.call
  | .callMethodList methods => methods.foldlM (fun _ method => methodFunction method none) nil
  | .progn first second => do
    let _ ← first.eval
    second.eval
  | .multipleValueProg1 first rest => do
    let x ← first.eval
    let _ ← rest.eval
    return x

/-- `call-next-method`, which passes on the rest of the next methods to a method. -/
def NextMethods.call : NextMethods M → Option (m β)
  | .nil => none
  | .method method rest => some (methodFunction method rest.call)
  | .makeMethod form _ => some form.eval

end

end Eval

end Xcl.MethodCombination
