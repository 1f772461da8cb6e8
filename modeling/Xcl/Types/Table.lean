import Xcl.Types.IntegerTypes

/-!
# The table of canonical types

* `Simple`, `Known`: names, numeric types, array types, their unions, and the conjunctions of two
  integer types;
* **`canonicalizeType_known`**: the canonical type does not depend on the calls before.
-/

namespace Xcl.Types

/-- The names, and the numeric types. -/
def Scalar : Specifier → Prop
  | .atom _ | .integer _ | .interval _ _ | .mod _ | .signedByte _ | .unsignedByte _ => True
  | _ => False

/-- The names, the numeric types, and the array types that are canonical. -/
def Simple : Specifier → Prop
  | .array2 _ elementType _ => Scalar elementType ∧ canonical elementType = elementType
  | type => Scalar type

def Members (p : Specifier → Prop) : Specifiers → Prop
  | .nil => True
  | .cons type types => p type ∧ Members p types

/-- The type specifiers for which the calls before do not matter. -/
def Known : Specifier → Prop
  | .and types => ∃ a b : IntegerType, types = .ofList [a.specifier, b.specifier]
  | .or types => Members Simple types
  | type => Simple type

def Exact (canonicalType type : Specifier) : Prop := Known type → canonicalType = canonical type

def ExactCache (cache : Cache) : Prop := ∀ entry ∈ cache, Exact entry.2 entry.1

theorem scalar_specifier (a : IntegerType) : Scalar a.specifier := by
  cases a <;> trivial

theorem Scalar.simple {type : Specifier} (h : Scalar type) : Simple type := by
  cases type <;> first | exact h | exact h.elim

theorem Simple.known {type : Specifier} (h : Simple type) : Known type := by
  cases type <;> first | exact h | exact h.elim

theorem known_specifier (a : IntegerType) : Known a.specifier := (scalar_specifier a).simple.known

theorem known_form (form : IntegerForm) : Known form.specifier := by
  cases form with
  | simple a => exact known_specifier a
  | and a b => exact ⟨a, b, rfl⟩

/-! ## Keys -/

theorem IntegerType.eq_of_equal {type : IntegerType} {other : Specifier}
    (h : type.specifier.equal other = true ∨ other.equal type.specifier = true) :
    other = type.specifier := by
  rcases h with h | h <;> cases type <;> cases other <;> simp_all [specifier, Specifier.equal]

theorem eq_of_equal_and {a b : IntegerType} {other : Specifier}
    (h : (Specifier.and (.ofList [a.specifier, b.specifier])).equal other = true ∨
      other.equal (.and (.ofList [a.specifier, b.specifier])) = true) :
    other = .and (.ofList [a.specifier, b.specifier]) := by
  cases other with
  | and types =>
    match types with
    | .nil => simp [Specifier.equal, Specifiers.equal, Specifiers.ofList] at h
    | .cons _ .nil => simp [Specifier.equal, Specifiers.equal, Specifiers.ofList] at h
    | .cons _ (.cons _ (.cons _ _)) =>
      simp [Specifier.equal, Specifiers.equal, Specifiers.ofList] at h
    | .cons other1 (.cons other2 .nil) =>
      simp only [Specifier.equal, Specifiers.equal, Specifiers.ofList, Bool.and_true,
        Bool.and_eq_true] at h
      rw [a.eq_of_equal (h.imp And.left And.left), b.eq_of_equal (h.imp And.right And.right)]
      rfl
  | _ => simp [Specifier.equal] at h

theorem eq_of_equal_scalar {type other : Specifier} (h : Scalar type)
    (hequal : type.equal other = true ∨ other.equal type = true) : other = type := by
  cases type with
  | atom | integer | interval | mod | signedByte | unsignedByte =>
    rcases hequal with hequal | hequal <;> cases other <;> simp_all [Specifier.equal]
  | _ => exact h.elim

theorem eq_of_equal_simple {type other : Specifier} (h : Simple type)
    (hequal : type.equal other = true ∨ other.equal type = true) : other = type := by
  cases type with
  | array2 name elementType dimensions =>
    cases other with
    | array2 otherName otherType otherDimensions =>
      have helement : otherType = elementType := by
        refine eq_of_equal_scalar h.1 (hequal.imp ?_ ?_) <;>
          simp +contextual [Specifier.equal]
      rcases hequal with hequal | hequal <;> simp_all [Specifier.equal]
    | _ => simp [Specifier.equal] at hequal
  | _ => exact eq_of_equal_scalar h hequal

theorem eq_of_equals_simple : ∀ {types others : Specifiers}, Members Simple types →
    types.equal others = true ∨ others.equal types = true → others = types
  | .nil, .nil, _, _ => rfl
  | .nil, .cons _ _, _, h => by simp [Specifiers.equal] at h
  | .cons _ _, .nil, _, h => by simp [Specifiers.equal] at h
  | .cons type types, .cons other others, hsimple, h => by
    simp only [Specifiers.equal, Bool.and_eq_true] at h
    rw [eq_of_equal_simple hsimple.1 (h.imp And.left And.left),
      eq_of_equals_simple hsimple.2 (h.imp And.right And.right)]

theorem eq_of_equal_known {type other : Specifier} (hknown : Known type)
    (h : type.equal other = true ∨ other.equal type = true) : other = type := by
  cases type with
  | and types =>
    obtain ⟨a, b, rfl⟩ := hknown
    exact eq_of_equal_and h
  | or types =>
    cases other with
    | or others =>
      have hmembers : types.equal others = true ∨ others.equal types = true := by
        simpa [Specifier.equal] using h
      rw [eq_of_equals_simple hknown hmembers]
    | _ => simp [Specifier.equal] at h
  | _ => exact eq_of_equal_simple hknown h

theorem exact_gethash {type canonicalType : Specifier} : ∀ {cache : Cache},
    ExactCache cache → cache.gethash type = some canonicalType → Exact canonicalType type
  | (key, value) :: cache, hexact, h => by
    rw [Cache.gethash] at h
    split_ifs at h with hequal
    · cases h
      intro hknown
      have hkey := hexact (key, canonicalType) List.mem_cons_self
      change Exact canonicalType key at hkey
      rw [eq_of_equal_known hknown (.inr hequal)] at hkey
      exact hkey hknown
    · exact exact_gethash (fun entry hentry => hexact entry (List.mem_cons_of_mem _ hentry)) h

theorem exact_puthash {type canonicalType : Specifier} (h : Exact canonicalType type) :
    ∀ {cache : Cache}, ExactCache cache → ExactCache (cache.puthash type canonicalType)
  | [], _ => by
    intro entry hentry
    rw [List.mem_singleton.mp hentry]
    exact h
  | (key, value) :: cache, hexact => by
    have hrest : ExactCache cache := fun entry hentry =>
      hexact entry (List.mem_cons_of_mem _ hentry)
    intro entry hentry
    rw [Cache.puthash] at hentry
    split_ifs at hentry with hequal
    · rcases List.mem_cons.mp hentry with rfl | hmem
      · intro hknown
        change Known key at hknown
        change canonicalType = canonical key
        have hkey := eq_of_equal_known hknown (.inl hequal)
        rw [hkey] at h
        exact h hknown
      · exact hrest entry hmem
    · rcases List.mem_cons.mp hentry with rfl | hmem
      · exact hexact _ List.mem_cons_self
      · exact exact_puthash h hrest entry hmem

/-! ## What a call comes to -/

structure ExactOutcome (outcome : Outcome) : Prop where
  exact : Exact outcome.canonicalType outcome.type
  cache : ExactCache outcome.cache

theorem ExactOutcome.remember {outcome : Outcome} (h : ExactOutcome outcome) :
    ExactOutcome outcome.remember := by
  unfold Outcome.remember
  split
  · exact h
  · exact h
  · exact ⟨h.exact, exact_puthash h.exact h.cache⟩

theorem exactOutcome_lookUp {changed : Specifier} {percent : Cache → Outcome} {cache : Cache}
    (hcache : ExactCache cache) (hpercent : ExactOutcome (percent cache)) :
    ExactOutcome (lookUp changed percent cache) := by
  unfold lookUp
  split
  · rename_i canonicalType hfound
    exact ⟨exact_gethash hcache hfound, hcache⟩
  · exact hpercent.remember

theorem percent_and_type (types : Specifiers) (cache : Cache) :
    ∃ changed, (percentCanonicalizeType (.and types) cache).type = .and changed := by
  rw [percentCanonicalizeType]
  dsimp only
  split
  · split
    · exact ⟨_, rfl⟩
    · exact ⟨_, rfl⟩
  · exact ⟨_, rfl⟩

theorem percent_or_type (types : Specifiers) (cache : Cache) :
    ∃ changed, (percentCanonicalizeType (.or types) cache).type = .or changed := by
  rw [percentCanonicalizeType]
  split_ifs
  · exact ⟨_, rfl⟩
  · exact ⟨_, rfl⟩

theorem eq_of_percent_type {type target : Specifier} {cache : Cache} (htarget : Scalar target)
    (h : (percentCanonicalizeType type cache).type = target) : type = target := by
  cases type with
  | and types =>
    obtain ⟨changed, hchanged⟩ := percent_and_type types cache
    rw [← h, hchanged] at htarget
    exact htarget.elim
  | or types =>
    obtain ⟨changed, hchanged⟩ := percent_or_type types cache
    rw [← h, hchanged] at htarget
    exact htarget.elim
  | array1 =>
    rw [← h] at htarget
    exact htarget.elim
  | array2 =>
    rw [← h] at htarget
    exact htarget.elim
  | vector1 =>
    rw [← h] at htarget
    exact htarget.elim
  | vector2 =>
    rw [← h] at htarget
    exact htarget.elim
  | _ => exact h

theorem isList_of_percents {types : Specifiers} {cache : Cache}
    (h : isList (percentCanonicalizeTypes types cache).types = true) : isList types = true := by
  match types with
  | .nil => cases h
  | .cons type1 .nil => simp [percentCanonicalizeTypes, isList] at h
  | .cons type1 (.cons type2 (.cons _ _)) => simp [percentCanonicalizeTypes, isList] at h
  | .cons type1 (.cons type2 .nil) =>
    have hname : ∀ {type : Specifier} {cache : Cache} {name : Name},
        (percentCanonicalizeType type cache).type = .atom name → type = .atom name :=
      fun h => eq_of_percent_type trivial h
    simp only [percentCanonicalizeTypes] at h
    unfold isList at h
    split at h
    · rename_i htypes
      obtain ⟨h1, htail⟩ := Specifiers.cons.inj htypes
      rw [hname h1, hname (Specifiers.cons.inj htail).1]
      rfl
    · rename_i htypes
      obtain ⟨h1, htail⟩ := Specifiers.cons.inj htypes
      rw [hname h1, hname (Specifiers.cons.inj htail).1]
      rfl
    · cases h

theorem remember_type (outcome : Outcome) : outcome.remember.type = outcome.type := by
  unfold Outcome.remember
  split <;> rfl

theorem lookUp_type {type : Specifier} {percent : Cache → Outcome} {cache : Cache}
    (h : (percent cache).type = type) : (lookUp type percent cache).type = type := by
  unfold lookUp
  split
  · rfl
  · rw [remember_type, h]

theorem lookUp_specifier (a : IntegerType) (cache : Cache) :
    (lookUp a.specifier (percentCanonicalizeType a.specifier) cache).type = a.specifier :=
  lookUp_type (by cases a <;> rfl)

/-- `canonicalize-type` does not make an integer type of another type. -/
theorem eq_of_lookUp_type {type changed : Specifier} {cache : Cache} {a : IntegerType}
    (hchanged : type = a.specifier → changed = a.specifier)
    (h : (lookUp changed (percentCanonicalizeType type) cache).type = a.specifier) :
    changed = a.specifier := by
  unfold lookUp at h
  split at h
  · exact h
  · rw [remember_type] at h
    exact hchanged (eq_of_percent_type (scalar_specifier a) h)

/-! ## Conjunctions -/

/-- The second type specifier is an integer type only if the first one is. -/
def Keeps (type changed : Specifier) : Prop :=
  ∀ a : IntegerType, changed = a.specifier → type = a.specifier

/-- What the calls for the members of a conjunction come to. -/
structure ExactOutcomes (types : Specifiers) (outcomes : Outcomes) : Prop where
  exact : Pairwise Exact outcomes.canonicalTypes outcomes.types
  keeps : Pairwise Keeps outcomes.types types
  cache : ExactCache outcomes.cache

theorem pairwise_two {R : Specifier → Specifier → Prop} {types : Specifiers}
    {type1 type2 : Specifier} (h : Pairwise R types (.ofList [type1, type2])) :
    ∃ type1' type2', types = .ofList [type1', type2'] ∧ R type1' type1 ∧ R type2' type2 := by
  cases types with
  | nil => exact h.elim
  | cons type1' rest =>
    cases rest with
    | nil => exact h.2.elim
    | cons type2' rest =>
      cases rest with
      | nil => exact ⟨type1', type2', rfl, h.1, h.2.1⟩
      | cons => exact h.2.2.elim

theorem exact_members {canonicalTypes : Specifiers} {a b : IntegerType}
    (h : Pairwise Exact canonicalTypes (.ofList [a.specifier, b.specifier])) :
    canonicalTypes = .ofList [integerType a.limits.1 a.limits.2,
      integerType b.limits.1 b.limits.2] := by
  obtain ⟨type1, type2, rfl, h1, h2⟩ := pairwise_two h
  rw [h1 (known_specifier a), h2 (known_specifier b), canonical_specifier, canonical_specifier]

theorem eq_of_keeps {types : Specifiers} {a b : IntegerType}
    (h : Pairwise Keeps types (.ofList [a.specifier, b.specifier])) :
    types = .ofList [a.specifier, b.specifier] := by
  obtain ⟨type1, type2, rfl, h1, h2⟩ := pairwise_two h
  rw [h1 a rfl, h2 b rfl]

theorem exact_and {types : Specifiers} {canonicalType : Specifier}
    (h : ∀ a b : IntegerType, types = .ofList [a.specifier, b.specifier] →
      canonicalType = (IntegerForm.and a b).canonicalType) : Exact canonicalType (.and types) := by
  rintro ⟨a, b, rfl⟩
  exact (h a b rfl).trans (canonical_form (.and a b)).symm

mutual

theorem exact_percent : ∀ (type : Specifier) (cache : Cache), ExactCache cache →
    ExactOutcome (percentCanonicalizeType type cache)
  | .and types, cache, hcache => by
    have first := exact_canonicalizeTypes types cache hcache
    rw [percentCanonicalizeType]
    dsimp only
    split
    · rename_i type1 type2 hfirst
      have hexact := first.exact
      rw [hfirst] at hexact
      have hmembers : ∀ a b : IntegerType,
          (canonicalizeTypes types cache).types = .ofList [a.specifier, b.specifier] →
            intersection type1 type2 = some (IntegerForm.and a b).canonicalType := by
        intro a b htypes
        rw [htypes] at hexact
        obtain ⟨rfl, htail⟩ := Specifiers.cons.inj (exact_members hexact)
        obtain ⟨rfl, -⟩ := Specifiers.cons.inj htail
        exact intersection_limits a b
      split
      · rename_i type hint
        refine ⟨exact_and fun a b htypes => ?_, first.cache⟩
        exact Option.some.inj (hint.symm.trans (hmembers a b htypes))
      · rename_i hint
        have second := exact_canonicalizeTypesAgain types _ _ first.keeps first.cache
        refine ⟨exact_and fun a b htypes => ?_, second.2⟩
        -- two integer types have an intersection
        have hkeeps := second.1
        rw [htypes] at hkeeps
        have hnone := hmembers a b (eq_of_keeps hkeeps)
        rw [hint] at hnone
        cases hnone
    · rename_i canonicalTypes hshape
      refine ⟨exact_and fun a b htypes => ?_, first.cache⟩
      have hexact := first.exact
      rw [htypes] at hexact
      exact absurd (exact_members hexact) (hshape _ _)
  | .or types, cache, hcache => by
    have members := exact_percents types cache hcache
    rw [percentCanonicalizeType]
    split_ifs with hlist
    · exact ⟨fun _ => (if_pos hlist).symm, hcache⟩
    · refine ⟨fun hknown => ?_, members.2⟩
      refine (congrArg Specifier.or (members.1 hknown)).trans ?_
      exact (if_neg (mt isList_of_percents hlist)).symm
  | .array1 _ elementType, cache, hcache => by
    have h := exact_percent elementType cache hcache
    rw [percentCanonicalizeType]
    exact ⟨fun hknown => hknown.elim, h.cache⟩
  | .array2 name elementType dimensions, cache, hcache => by
    have h := exact_percent elementType cache hcache
    rw [percentCanonicalizeType]
    exact ⟨fun hknown => congrArg (Specifier.array2 name · dimensions) hknown.2.symm, h.cache⟩
  | .vector1 elementType, cache, hcache => by
    have h := exact_percent elementType cache hcache
    rw [percentCanonicalizeType]
    exact ⟨fun hknown => hknown.elim, h.cache⟩
  | .vector2 elementType _, cache, hcache => by
    have h := exact_percent elementType cache hcache
    rw [percentCanonicalizeType]
    exact ⟨fun hknown => hknown.elim, h.cache⟩
  | .atom _, _, hcache => ⟨fun _ => rfl, hcache⟩
  | .integer _, _, hcache => ⟨fun _ => rfl, hcache⟩
  | .interval _ _, _, hcache => ⟨fun _ => rfl, hcache⟩
  | .mod _, _, hcache => ⟨fun _ => rfl, hcache⟩
  | .signedByte _, _, hcache => ⟨fun _ => rfl, hcache⟩
  | .unsignedByte _, _, hcache => ⟨fun _ => rfl, hcache⟩
  | .eql _, _, hcache => ⟨fun hknown => hknown.elim, hcache⟩
  | .cons _, _, hcache => ⟨fun hknown => hknown.elim, hcache⟩
  | .array0 _, _, hcache => ⟨fun hknown => hknown.elim, hcache⟩
  | .vector0, _, hcache => ⟨fun hknown => hknown.elim, hcache⟩
  | .sized _ _, _, hcache => ⟨fun hknown => hknown.elim, hcache⟩

theorem exact_percents : ∀ (types : Specifiers) (cache : Cache), ExactCache cache →
    (Members Simple (percentCanonicalizeTypes types cache).types →
      (percentCanonicalizeTypes types cache).canonicalTypes =
        canonicals (percentCanonicalizeTypes types cache).types) ∧
    ExactCache (percentCanonicalizeTypes types cache).cache
  | .nil, _, hcache => ⟨fun _ => rfl, hcache⟩
  | .cons type types, cache, hcache => by
    have h := exact_percent type cache hcache
    have hs := exact_percents types _ h.cache
    refine ⟨fun hsimple => ?_, hs.2⟩
    exact congrArg₂ Specifiers.cons (h.exact hsimple.1.known) (hs.1 hsimple.2)

theorem exact_canonicalizeTypes : ∀ (types : Specifiers) (cache : Cache), ExactCache cache →
    ExactOutcomes types (canonicalizeTypes types cache)
  | .nil, _, hcache => ⟨trivial, trivial, hcache⟩
  | .cons type types, cache, hcache => by
    have h := @exactOutcome_lookUp type _ _ hcache (exact_percent type cache hcache)
    have hs := exact_canonicalizeTypes types _ h.cache
    refine ⟨⟨h.exact, hs.exact⟩, ⟨fun a ha => ?_, hs.keeps⟩, hs.cache⟩
    rw [ha]
    exact lookUp_specifier a cache

theorem exact_canonicalizeTypesAgain : ∀ (types changed : Specifiers) (cache : Cache),
    Pairwise Keeps changed types → ExactCache cache →
      Pairwise Keeps changed (canonicalizeTypesAgain types changed cache).types ∧
        ExactCache (canonicalizeTypesAgain types changed cache).cache
  | .nil, .nil, _, _, hcache => ⟨trivial, hcache⟩
  | .cons type types, .cons changed changedTypes, cache, hkeeps, hcache => by
    have h := @exactOutcome_lookUp changed _ _ hcache (exact_percent type cache hcache)
    have hs := exact_canonicalizeTypesAgain types changedTypes _ hkeeps.2 h.cache
    refine ⟨⟨fun a ha => ?_, hs.1⟩, hs.2⟩
    exact eq_of_lookUp_type (hkeeps.1 a) ha

end

/-! ## Runs -/

theorem exact_canonicalTypes (types : List Specifier) : ExactCache (canonicalTypes types) := by
  have hrun : ∀ (types : List Specifier) (cache : Cache), ExactCache cache →
      ExactCache (types.foldl (fun cache type => (canonicalizeType type cache).cache) cache) := by
    intro types
    induction types with
    | nil => exact fun _ hcache => hcache
    | cons type types ih =>
      intro cache hcache
      exact ih _ (exactOutcome_lookUp hcache (exact_percent type cache hcache)).cache
  exact hrun types [] fun _ hmem => by cases hmem

theorem canonicalizeTypes_specifiers (a b : IntegerType) (cache : Cache) :
    (canonicalizeTypes (.ofList [a.specifier, b.specifier]) cache).types =
      .ofList [a.specifier, b.specifier] := by
  simp only [Specifiers.ofList, canonicalizeTypes, lookUp_specifier]

theorem canonicalizeTypesAgain_specifiers (a b : IntegerType) (cache : Cache) :
    (canonicalizeTypesAgain (.ofList [a.specifier, b.specifier])
      (.ofList [a.specifier, b.specifier]) cache).types =
      .ofList [a.specifier, b.specifier] := by
  simp only [Specifiers.ofList, canonicalizeTypesAgain, lookUp_specifier]

theorem percent_simple {type : Specifier} (hsimple : Simple type) (cache : Cache) :
    (percentCanonicalizeType type cache).type = type := by
  cases type with
  | array2 name elementType dimensions =>
    have helement : (percentCanonicalizeType elementType cache).canonicalType = elementType := by
      obtain ⟨hscalar, hcanonical⟩ := hsimple
      cases elementType <;> first | exact hcanonical | exact hscalar.elim
    exact congrArg (Specifier.array2 name · dimensions) helement
  | atom | integer | interval | mod | signedByte | unsignedByte => rfl
  | _ => exact hsimple.elim

theorem percents_simple : ∀ {types : Specifiers} (_ : Members Simple types) (cache : Cache),
    (percentCanonicalizeTypes types cache).types = types
  | .nil, _, _ => rfl
  | .cons _ _, hsimple, cache =>
    congrArg₂ Specifiers.cons (percent_simple hsimple.1 cache) (percents_simple hsimple.2 _)

theorem percent_known {type : Specifier} (hknown : Known type) (cache : Cache) :
    (percentCanonicalizeType type cache).type = type := by
  cases type with
  | and types =>
    obtain ⟨a, b, rfl⟩ := hknown
    have hfirst := canonicalizeTypes_specifiers a b cache
    rw [percentCanonicalizeType]
    dsimp only
    split
    · split
      · exact congrArg Specifier.and hfirst
      · rw [hfirst, canonicalizeTypesAgain_specifiers]
    · exact congrArg Specifier.and hfirst
  | or types =>
    rw [percentCanonicalizeType]
    split_ifs
    · rfl
    · exact congrArg Specifier.or (percents_simple hknown cache)
  | array2 name elementType dimensions =>
    have hsimple : Simple (.array2 name elementType dimensions) := hknown
    exact percent_simple hsimple cache
  | atom | integer | interval | mod | signedByte | unsignedByte => rfl
  | _ => exact hknown.elim

/-- **`canonicalize-type` of a known type specifier** returns its canonical form, whatever is in
the table. -/
theorem canonicalizeType_known {type : Specifier} (hknown : Known type) {cache : Cache}
    (hcache : ExactCache cache) :
    (canonicalizeType type cache).canonicalType = canonical type ∧
      ExactCache (canonicalizeType type cache).cache := by
  have h := @exactOutcome_lookUp type _ _ hcache (exact_percent type cache hcache)
  have htype : (lookUp type (percentCanonicalizeType type) cache).type = type :=
    lookUp_type (percent_known hknown cache)
  have hexact := h.exact
  rw [htype] at hexact
  exact ⟨hexact hknown, h.cache⟩

end Xcl.Types
