import CloudTemplate.Proofs.Validation.Violations
import Mathlib.Data.List.Forall2
/-! The judgement of a resource finds the violations of its values, and reports them in the order of the
specification. -/
namespace CloudTemplate

namespace Violations

variable {spec : Specification} {resourceType : String}

theorem isNamed_iff {name : String} {type : PropertyType} :
    IsNamed spec resourceType name type ↔ spec.propertyType? resourceType name = some type := by
  rw [IsNamed, Specification.propertyType?, Specification.qualifiedName, Option.or_eq_some_iff]

theorem not_isNamed_iff {name : String} :
    (∀ type, ¬ IsNamed spec resourceType name type) ↔ spec.propertyType? resourceType name = none := by
  simp only [isNamed_iff, Option.eq_none_iff_forall_ne_some, ne_eq]

theorem isScalarOrCall_iff {value : Tree} :
    IsScalarOrCall value ↔ (isScalar value || Intrinsic.isCall value) = true := by
  cases value <;> simp [IsScalarOrCall, isScalar]

theorem isScalarList_iff {value : Tree} :
    isScalarList value = true ↔
      ∃ items, value = .array items ∧ items ≠ [] ∧ ∀ item ∈ items, IsScalarOrCall item := by
  cases value <;> simp [isScalarList, isScalarOrCall_iff]

theorem isKnown_iff {value : Tree} : IsKnown value ↔ (value.isNull || Intrinsic.isCall value) = false := by
  cases value <;> simp [IsKnown, Tree.isNull]

def errorTexts (problems : List Problem) : List String :=
  (problems.filter fun p => p.severity == .error).map Problem.message

theorem errorTexts_append (problems others : List Problem) :
    errorTexts (problems ++ others) = errorTexts problems ++ errorTexts others := by
  simp [errorTexts]

theorem errorTexts_flatMap {α : Type} (items : List α) (problems : α → List Problem) :
    errorTexts (items.flatMap problems) = items.flatMap fun item => errorTexts (problems item) := by
  induction items with
  | nil => rfl
  | cons item items ih => rw [List.flatMap_cons, List.flatMap_cons, errorTexts_append, ih]

theorem errorTexts_disputes (book : Rulebook) (scope : Scope) (name : String) (property : Property) :
    errorTexts (book.disputes scope name property) = [] := by
  rw [Rulebook.disputes]
  split <;> rfl

theorem errorTexts_absence (scope : Scope) (name : String) (property : Property) :
    errorTexts (Rulebook.absence scope name property) =
      if property.required then [absenceText scope.parent name] else [] := by
  rw [Rulebook.absence]
  cases property.required with
  | false => rfl
  | true => cases hparent : scope.parent <;> rfl

def presenceProblems (book : Rulebook) (scope : Scope) (name : String) (property : Property)
    (value : Option Tree) : List Problem :=
  match value with
  | none => Rulebook.absence scope name property
  | some value => book.valueProblems scope.resourceType name property.shape value

theorem nestedProblems_eq (book : Rulebook) (scope : Scope) (properties : Entries Property) (entries : Entries Tree) :
    book.nestedProblems scope properties entries = properties.flatMap fun e =>
      book.disputes scope e.1 e.2 ++ presenceProblems book scope e.1 e.2 (entries.get? e.1) := by
  rw [Rulebook.nestedProblems]
  refine List.flatMap_congr fun e _ => ?_
  obtain ⟨name, property⟩ := e
  dsimp only
  congr 1
  split <;> rename_i h <;> simp only [h, presenceProblems]

theorem errorTexts_nestedProblems_cons (book : Rulebook) (scope : Scope) (name : String) (property : Property)
    (properties : Entries Property) (entries : Entries Tree) :
    errorTexts (book.nestedProblems scope ((name, property) :: properties) entries) =
      errorTexts (presenceProblems book scope name property (entries.get? name)) ++
        errorTexts (book.nestedProblems scope properties entries) := by
  rw [nestedProblems_eq, List.flatMap_cons, errorTexts_append, errorTexts_append, errorTexts_disputes,
    List.nil_append, ← nestedProblems_eq]

theorem ofEntries_iff_of_values (book : Rulebook) {scope : Scope} {entries : Entries Tree}
    (hvalues : ∀ name value, entries.get? name = some value → ∀ shape errors,
      OfValue book.spec scope.resourceType name shape value errors ↔
        errors = errorTexts (book.valueProblems scope.resourceType name shape value))
    (properties : Entries Property) (errors : List String) :
    OfEntries book.spec scope.resourceType scope.parent properties entries errors ↔
      errors = errorTexts (book.nestedProblems scope properties entries) := by
  induction properties generalizing errors with
  | nil =>
    rw [Rulebook.nestedProblems]
    constructor
    · intro h
      cases h
      rfl
    · intro heq
      subst heq
      exact .nil
  | cons e properties ih =>
    obtain ⟨name, property⟩ := e
    rw [errorTexts_nestedProblems_cons]
    -- What is declared and absent counts only where it is required; what is there is left to its value.
    cases hget : entries.get? name with
    | none =>
      rw [presenceProblems, errorTexts_absence]
      cases hrequired : property.required with
      | false =>
        constructor
        · intro h
          cases h with
          | missing _ h => simp [hrequired] at h
          | absent _ _ hrest => exact (ih _).1 hrest
          | present h => simp [hget] at h
        · intro h
          exact .absent hget hrequired ((ih _).2 h)
      | true =>
        constructor
        · intro h
          cases h with
          | missing _ _ hrest => rw [(ih _).1 hrest]; rfl
          | absent _ h => simp [hrequired] at h
          | present h => simp [hget] at h
        · intro heq
          subst heq
          exact .missing hget hrequired ((ih _).2 rfl)
    | some value =>
      rw [presenceProblems]
      constructor
      · intro h
        cases h with
        | missing h => simp [hget] at h
        | absent h => simp [hget] at h
        | present h hvalue hrest =>
          rw [hget] at h
          cases h
          rw [(hvalues _ _ hget _ _).1 hvalue, (ih _).1 hrest]
      · intro heq
        subst heq
        exact .present hget ((hvalues _ _ hget _ _).2 rfl) ((ih _).2 rfl)

theorem ofItems_iff_of_entries (book : Rulebook) {resourceType name item : String} {type : PropertyType}
    {items : List Tree}
    (hentries : ∀ entries, Tree.object entries ∈ items → ∀ errors,
      OfEntries book.spec resourceType (some name) type.properties entries errors ↔
        errors = errorTexts (book.nestedProblems (.inside resourceType item name) type.properties entries))
    (errors : List String) :
    OfItems book.spec resourceType name type.properties items errors ↔
      errors = errorTexts (book.itemProblems resourceType name item type items) := by
  induction items generalizing errors with
  | nil =>
    rw [Rulebook.itemProblems]
    constructor
    · intro h
      cases h
      rfl
    · intro heq
      subst heq
      exact .nil
  | cons value items ih =>
    have ih := ih fun entries hmem => hentries entries (List.mem_cons_of_mem _ hmem)
    -- Items that are no objects, and calls, have no rule of their own: both sides pass over them.
    by_cases hskip : (∀ entries, value ≠ .object entries) ∨ Intrinsic.isCall value = true
    · have hproblems : book.itemProblems resourceType name item type (value :: items) =
          book.itemProblems resourceType name item type items := by
        cases value with
        | object entries =>
          have hcall : Intrinsic.isCall (.object entries) = true := by simpa using hskip
          rw [Rulebook.itemProblems, if_pos hcall, List.nil_append]
        | _ => rw [Rulebook.itemProblems]; simp
      rw [hproblems, ← ih]
      constructor
      · intro h
        cases h with
        | skip _ hrest => exact hrest
        | object hknown => simp [hknown.2] at hskip
      · exact .skip hskip
    · obtain ⟨hobject, hcall⟩ := not_or.1 hskip
      obtain ⟨entries, rfl⟩ : ∃ entries, value = .object entries := by
        cases value with
        | object entries => exact ⟨entries, rfl⟩
        | _ => exact absurd (by simp) hobject
      rw [Rulebook.itemProblems, if_neg hcall, errorTexts_append]
      constructor
      · intro h
        cases h with
        | skip h => exact absurd h hskip
        | object _ h hrest => rw [(hentries entries List.mem_cons_self _).1 h, (ih _).1 hrest]
      · intro heq
        subst heq
        exact .object ⟨by simp, by simpa using hcall⟩ ((hentries entries List.mem_cons_self _).2 rfl) ((ih _).2 rfl)

section

variable (book : Rulebook) (name : String) {value : Tree}

theorem ofValue_iff_of_not_isKnown {shape : PropertyShape} (hknown : ¬ IsKnown value) (errors : List String) :
    OfValue book.spec resourceType name shape value errors ↔
      errors = errorTexts (book.valueProblems resourceType name shape value) := by
  have hskipped : (value.isNull || Intrinsic.isCall value) = true := by
    rwa [isKnown_iff, Bool.not_eq_false] at hknown
  have hproblems : book.valueProblems resourceType name shape value = [] := by
    unfold Rulebook.valueProblems
    rw [if_pos hskipped]
  rw [hproblems]
  constructor
  · intro h
    cases h with
    | notMap h => exact absurd h hknown
    | notScalars h => exact absurd h hknown
    | notList h => exact absurd h hknown
    | structured h => exact absurd h hknown
    | items => simp [Tree.isNull, Intrinsic.isCall, Intrinsic.detect?] at hskipped
    | _ => rfl
  · intro heq
    subst heq
    obtain h | h := Bool.or_eq_true_iff.1 hskipped
    · cases value with
      | null => exact .null
      | _ => contradiction
    · exact .call h

theorem ofPrimitive_iff (errors : List String) :
    OfValue book.spec resourceType name .primitive value errors ↔
      errors = errorTexts (book.valueProblems resourceType name .primitive value) := by
  have hproblems : book.valueProblems resourceType name .primitive value = [] := by
    simp [Rulebook.valueProblems]
  rw [hproblems]
  constructor
  · intro h
    cases h <;> rfl
  · intro heq
    subst heq
    exact .primitive

theorem ofMap_iff (hknown : IsKnown value) (errors : List String) :
    OfValue book.spec resourceType name .map value errors ↔
      errors = errorTexts (book.valueProblems resourceType name .map value) := by
  have hjudged := isKnown_iff.1 hknown
  by_cases hobject : ∃ entries, value = .object entries
  · obtain ⟨entries, rfl⟩ := hobject
    have hproblems : book.valueProblems resourceType name .map (.object entries) = [] := by
      simp [Rulebook.valueProblems]
    rw [hproblems]
    constructor
    · intro h
      cases h with
      | notMap _ h => exact absurd rfl (h entries)
      | _ => rfl
    · intro heq
      subst heq
      exact .map
  · have hobject := not_exists.1 hobject
    have hproblems : book.valueProblems resourceType name .map value = [.notMap name] := by
      cases value with
      | object entries => exact absurd rfl (hobject entries)
      | _ => simp [Rulebook.valueProblems, hjudged]
    rw [hproblems]
    constructor
    · intro h
      cases h with
      | null => exact absurd rfl hknown.1
      | call h => simp [hknown.2] at h
      | map => exact absurd rfl (hobject _)
      | notMap => rfl
    · intro heq
      subst heq
      exact .notMap hknown hobject

theorem ofScalars_iff (hknown : IsKnown value) (errors : List String) :
    OfValue book.spec resourceType name (.list none) value errors ↔
      errors = errorTexts (book.valueProblems resourceType name (.list none) value) := by
  have hjudged := isKnown_iff.1 hknown
  have hproblems : book.valueProblems resourceType name (.list none) value =
      if isScalarList value then [] else [.notList name] := by
    unfold Rulebook.valueProblems
    simp [hjudged]
  rw [hproblems]
  by_cases hlist : isScalarList value = true
  · have hitems := isScalarList_iff.1 hlist
    rw [if_pos hlist]
    constructor
    · intro h
      cases h with
      | notScalars _ h => exact absurd hitems h
      | _ => rfl
    · intro heq
      subst heq
      obtain ⟨items, rfl, hne, hscalars⟩ := hitems
      exact .scalars hne hscalars
  · have hitems := mt isScalarList_iff.2 hlist
    rw [if_neg hlist]
    constructor
    · intro h
      cases h with
      | null => exact absurd rfl hknown.1
      | call h => simp [hknown.2] at h
      | scalars hne h => exact absurd ⟨_, rfl, hne, h⟩ hitems
      | notScalars => rfl
    · intro heq
      subst heq
      exact .notScalars hknown hitems

theorem ofList_iff {item : String} (hknown : IsKnown value)
    (hentries : ∀ (typeName : String) (type : PropertyType) (entries : Entries Tree),
      sizeOf entries < sizeOf value → ∀ errors,
      OfEntries book.spec resourceType (some name) type.properties entries errors ↔
        errors = errorTexts (book.nestedProblems (.inside resourceType typeName name) type.properties entries))
    (errors : List String) :
    OfValue book.spec resourceType name (.list (some item)) value errors ↔
      errors = errorTexts (book.valueProblems resourceType name (.list (some item)) value) := by
  have hjudged := isKnown_iff.1 hknown
  -- The items are judged by their type if it is known, and not at all if it is not.
  by_cases harray : ∃ items, value = .array items
  · obtain ⟨items, rfl⟩ := harray
    cases htype : book.spec.propertyType? resourceType item with
    | none =>
      have hproblems : book.valueProblems resourceType name (.list (some item)) (.array items) = [] := by
        simp [Rulebook.valueProblems, htype]
      rw [hproblems]
      constructor
      · intro h
        cases h with
        | notList _ h => exact absurd rfl (h items)
        | items h => exact absurd h (not_isNamed_iff.2 htype _)
        | _ => rfl
      · intro heq
        subst heq
        exact .itemsOfNoType (not_isNamed_iff.2 htype)
    | some type =>
      have hproblems : book.valueProblems resourceType name (.list (some item)) (.array items) =
          book.itemProblems resourceType name item type items := by
        simp [Rulebook.valueProblems, htype, hjudged]
      have hsize : ∀ entries, Tree.object entries ∈ items → sizeOf entries < sizeOf (Tree.array items) := by
        intro entries hmem
        have hlt := List.sizeOf_lt_of_mem hmem
        simp only [Tree.object.sizeOf_spec, Tree.array.sizeOf_spec] at hlt ⊢
        omega
      rw [hproblems, ← ofItems_iff_of_entries book fun entries hmem => hentries item type entries (hsize entries hmem)]
      constructor
      · intro h
        cases h with
        | call h => simp [hknown.2] at h
        | notList _ h => exact absurd rfl (h items)
        | itemsOfNoType h => exact absurd (isNamed_iff.2 htype) (h type)
        | items hnamed h =>
          have := (isNamed_iff.1 hnamed).symm.trans htype
          cases this
          exact h
      · exact .items (isNamed_iff.2 htype)
  · have harray := not_exists.1 harray
    have hproblems : book.valueProblems resourceType name (.list (some item)) value = [.notList name] := by
      cases value with
      | array items => exact absurd rfl (harray items)
      | _ => simp [Rulebook.valueProblems, hjudged]
    rw [hproblems]
    constructor
    · intro h
      cases h with
      | null => exact absurd rfl hknown.1
      | call h => simp [hknown.2] at h
      | notList => rfl
      | itemsOfNoType => exact absurd rfl (harray _)
      | items => exact absurd rfl (harray _)
    · intro heq
      subst heq
      exact .notList hknown harray

theorem ofStructured_iff {typeName : String} (hknown : IsKnown value)
    (hentries : ∀ (typeName : String) (type : PropertyType) (entries : Entries Tree),
      sizeOf entries < sizeOf value → ∀ errors,
      OfEntries book.spec resourceType (some name) type.properties entries errors ↔
        errors = errorTexts (book.nestedProblems (.inside resourceType typeName name) type.properties entries))
    (errors : List String) :
    OfValue book.spec resourceType name (.structured typeName) value errors ↔
      errors = errorTexts (book.valueProblems resourceType name (.structured typeName) value) := by
  have hjudged := isKnown_iff.1 hknown
  -- Nothing is held against a value that is no object where an object is expected.
  by_cases hobject : ∃ entries, value = .object entries
  · obtain ⟨entries, rfl⟩ := hobject
    cases htype : book.spec.propertyType? resourceType typeName with
    | none =>
      have hproblems : book.valueProblems resourceType name (.structured typeName) (.object entries) = [] := by
        simp [Rulebook.valueProblems, htype]
      rw [hproblems]
      constructor
      · intro h
        cases h with
        | structured _ h => exact absurd h (not_isNamed_iff.2 htype _)
        | _ => rfl
      · intro heq
        subst heq
        exact .structuredOfNoType (not_isNamed_iff.2 htype)
    | some type =>
      have hproblems : book.valueProblems resourceType name (.structured typeName) (.object entries) =
          book.nestedProblems (.inside resourceType typeName name) type.properties entries := by
        simp only [Rulebook.valueProblems, htype, hjudged, Bool.false_eq_true, if_false]
      rw [hproblems, ← hentries typeName type entries (by simp only [Tree.object.sizeOf_spec]; omega)]
      constructor
      · intro h
        cases h with
        | call h => simp [hknown.2] at h
        | notStructured h => exact absurd rfl (h entries)
        | structuredOfNoType h => exact absurd (isNamed_iff.2 htype) (h type)
        | structured _ hnamed h =>
          have := (isNamed_iff.1 hnamed).symm.trans htype
          cases this
          exact h
      · exact .structured hknown (isNamed_iff.2 htype)
  · have hobject := not_exists.1 hobject
    have hproblems : book.valueProblems resourceType name (.structured typeName) value = [] := by
      cases value with
      | object entries => exact absurd rfl (hobject entries)
      | _ => simp [Rulebook.valueProblems]
    rw [hproblems]
    constructor
    · intro h
      cases h with
      | structured => exact absurd rfl (hobject _)
      | _ => rfl
    · intro heq
      subst heq
      exact .notStructured hobject

end

/-- A value has the violations that it is judged to have, and no others. -/
theorem ofValue_iff (book : Rulebook) (resourceType name : String) (shape : PropertyShape) (value : Tree)
    (errors : List String) :
    OfValue book.spec resourceType name shape value errors ↔
      errors = errorTexts (book.valueProblems resourceType name shape value) := by
  have hentries : ∀ (typeName : String) (type : PropertyType) (entries : Entries Tree),
      sizeOf entries < sizeOf value → ∀ errors,
      OfEntries book.spec resourceType (some name) type.properties entries errors ↔
        errors = errorTexts (book.nestedProblems (.inside resourceType typeName name) type.properties entries) := by
    intro typeName type entries hlt
    let scope : Scope := .inside resourceType typeName name
    have hvalues : ∀ inner value, entries.get? inner = some value → ∀ shape errors,
        OfValue book.spec scope.resourceType inner shape value errors ↔
          errors = errorTexts (book.valueProblems scope.resourceType inner shape value) := by
      intro inner value hget shape errors
      have hsize := Entries.sizeOf_get? hget
      exact ofValue_iff book scope.resourceType inner shape value errors
    exact ofEntries_iff_of_values book hvalues type.properties
  by_cases hknown : IsKnown value
  · cases shape with
    | primitive => exact ofPrimitive_iff book name errors
    | map => exact ofMap_iff book name hknown errors
    | list item =>
      cases item with
      | none => exact ofScalars_iff book name hknown errors
      | some item => exact ofList_iff book name hknown hentries errors
    | structured typeName => exact ofStructured_iff book name hknown hentries errors
  · exact ofValue_iff_of_not_isKnown book name hknown errors
termination_by sizeOf value

theorem ofEntries_iff (book : Rulebook) (scope : Scope) (properties : Entries Property) (entries : Entries Tree)
    (errors : List String) :
    OfEntries book.spec scope.resourceType scope.parent properties entries errors ↔
      errors = errorTexts (book.nestedProblems scope properties entries) :=
  ofEntries_iff_of_values book
    (fun name value _ shape errors => ofValue_iff book scope.resourceType name shape value errors) properties errors

/-- Whether the errors of a validation are the violations of its resource, and then what the calls in the
resource get wrong about the template. Dead properties count at the top only. -/
def Reported (book : Rulebook) (dead : DeadEntries) (references : References) (entry : String × Resource)
    (judged : ResourceValidation) : Prop :=
  judged.resource = entry.1 ∧ judged.resourceType = entry.2.resourceType ∧
    ∀ type, book.spec.resourceType? entry.2.resourceType = some type → ∃ errors,
      judged.errors = errors ++ errorTexts ((Rulebook.live dead entry.1 entry.2.properties).flatMap fun e =>
        Rulebook.referenceProblems book.spec references e.2) ∧
      ∀ others, OfEntries book.spec entry.2.resourceType none
        (type.properties.filter fun e => !dead.isDeadProperty entry.1 e.1) entry.2.properties others ↔
          others = errors

theorem errors_judge (book : Rulebook) (dead : DeadEntries) (references : References) (name : String)
    (resource : Resource) :
    (book.judge dead references name resource).errors =
      errorTexts (book.resourceProblems dead references name resource) := by
  simp only [Rulebook.judge, ResourceValidation.errors, ResourceValidation.messages, errorTexts,
    List.filter_map, List.map_map]
  rfl

theorem reported_judge (book : Rulebook) (dead : DeadEntries) (references : References)
    (entry : String × Resource) :
    Reported book dead references entry (book.judge dead references entry.1 entry.2) := by
  refine ⟨rfl, rfl, fun type htype => ?_⟩
  let scope : Scope := .ofResource entry.2.resourceType
  refine ⟨errorTexts (book.nestedProblems scope (Rulebook.live dead entry.1 type.properties) entry.2.properties),
    ?_, ?_⟩
  · rw [errors_judge, Rulebook.resourceProblems, htype]
    exact errorTexts_append _ _
  · exact ofEntries_iff book scope _ _

/-- The live resources of a template are reported in their order, each with exactly its violations. -/
theorem reported_judgeTemplate (book : Rulebook) (template : Template) (dead : DeadEntries) :
    List.Forall₂ (Reported book dead (.of template))
      (template.resources.filter fun e => !dead.isDeadResource e.1) (book.judgeTemplate template dead) := by
  rw [Rulebook.judgeTemplate, List.forall₂_map_right_iff, List.forall₂_same]
  exact fun entry _ => reported_judge book dead (.of template) entry

end Violations

end CloudTemplate
