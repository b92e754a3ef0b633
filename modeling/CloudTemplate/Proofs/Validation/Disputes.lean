import CloudTemplate.Proofs.Validation.DeadData
/-! The table of disagreements. It adds warnings and nothing else: under another table a report has the same
entries with the same errors. The warnings are those of the checks that the table lists, one for each time that a
property is looked at, at any depth. -/
namespace CloudTemplate

namespace Checks

structure Check where
  key : String
  property : String
  required : Bool
  deriving DecidableEq, Repr

def Check.warning (check : Check) : String :=
  "Property " ++ check.property ++ " of " ++ check.key ++ " is " ++ (if check.required then "required" else "optional")
    ++ " in the specification, but the documentation disagrees"

def Check.isListed (table : Disagreements) (check : Check) : Bool :=
  table.holds check.key check.property "Required"

structure Part where
  typeName : String
  type : PropertyType
  entries : Entries Tree

def knownEntries? : Tree → Option (Entries Tree)
  | .object entries => if Intrinsic.isCall (.object entries) then none else some entries
  | _ => none

def objectsIn : PropertyShape → Tree → List (String × Entries Tree)
  | .structured typeName, value => (knownEntries? value).toList.map fun entries => (typeName, entries)
  | .list (some item), .array items => (items.filterMap knownEntries?).map fun entries => (item, entries)
  | _, _ => []

/-- The objects in a value that have a property type, of the resource type's own or shared. -/
def parts (spec : Specification) (resourceType : String) (shape : PropertyShape) (value : Option Tree) : List Part :=
  value.toList.flatMap fun value => (objectsIn shape value).filterMap fun object =>
    (spec.propertyType? resourceType object.1).map fun type => ⟨object.1, type, object.2⟩

mutual

inductive OfEntries (spec : Specification) (resourceType : String) :
    String → Entries Property → Entries Tree → List Check → Prop
  | nil {key : String} {entries : Entries Tree} : OfEntries spec resourceType key [] entries []
  | cons {key name : String} {property : Property} {properties : Entries Property} {entries : Entries Tree}
      {inner others : List Check}
      (hvalue : OfParts spec resourceType (parts spec resourceType property.shape (entries.get? name)) inner)
      (hrest : OfEntries spec resourceType key properties entries others) :
      OfEntries spec resourceType key ((name, property) :: properties) entries
        (⟨key, name, property.required⟩ :: (inner ++ others))

inductive OfParts (spec : Specification) (resourceType : String) : List Part → List Check → Prop
  | nil : OfParts spec resourceType [] []
  | cons {part : Part} {parts : List Part} {checks others : List Check}
      (h : OfEntries spec resourceType (resourceType ++ "." ++ part.typeName) part.type.properties part.entries checks)
      (hrest : OfParts spec resourceType parts others) : OfParts spec resourceType (part :: parts) (checks ++ others)

end

def Warns (table : Disagreements) (p : List Check → Prop) (warnings : List String) : Prop :=
  ∃ checks, (∀ others, p others ↔ others = checks) ∧
    warnings = (checks.filter (Check.isListed table)).map Check.warning

def warningTexts (problems : List Problem) : List String :=
  (problems.filter fun p => p.severity == .warning).map Problem.message

theorem warningTexts_append (problems others : List Problem) :
    warningTexts (problems ++ others) = warningTexts problems ++ warningTexts others := by
  simp [warningTexts]

theorem warningTexts_of_errors {problems : List Problem} (h : ∀ problem ∈ problems, problem.severity = .error) :
    warningTexts problems = [] := by
  have hfilter : (problems.filter fun p => p.severity == .warning) = [] :=
    List.filter_eq_nil_iff.2 fun problem hproblem => by simp [h problem hproblem]
  rw [warningTexts, hfilter, List.map_nil]

theorem warningTexts_disputes (book : Rulebook) (scope : Scope) (name : String) (property : Property) :
    warningTexts (book.disputes scope name property) =
      ([⟨scope.key, name, property.required⟩].filter (Check.isListed book.disagreements)).map Check.warning := by
  rw [Rulebook.disputes, List.filter_singleton]
  by_cases hlisted : book.disagreements.holds scope.key name "Required" = true
  · simp only [hlisted, Check.isListed, if_true]
    rfl
  · simp only [hlisted, Check.isListed]
    rfl

theorem warningTexts_absence (scope : Scope) (name : String) (property : Property) :
    warningTexts (Rulebook.absence scope name property) = [] := by
  refine warningTexts_of_errors fun problem hproblem => ?_
  rw [Rulebook.absence] at hproblem
  repeat' split at hproblem
  all_goals first | contradiction | (rw [List.mem_singleton.1 hproblem]; rfl)

section

variable (book : Rulebook) (resourceType name : String)

def partWarnings (part : Part) : List String :=
  warningTexts (book.nestedProblems (.inside resourceType part.typeName name) part.type.properties part.entries)

theorem warningTexts_itemProblems (item : String) (type : PropertyType) (items : List Tree) :
    warningTexts (book.itemProblems resourceType name item type items) =
      (items.filterMap knownEntries?).flatMap fun entries => partWarnings book resourceType name ⟨item, type, entries⟩ := by
  induction items with
  | nil => rw [Rulebook.itemProblems]; rfl
  | cons value items ih =>
    cases value with
    | object entries =>
      rw [Rulebook.itemProblems, warningTexts_append, ih, List.filterMap_cons, knownEntries?]
      by_cases hcall : Intrinsic.isCall (.object entries) = true
      · simp only [hcall, if_true]
        rfl
      · simp only [hcall]
        rfl
    | _ => rw [Rulebook.itemProblems, ih]; rfl; simp

theorem parts_of_propertyType? {spec : Specification} {resourceType item : String} {type : PropertyType}
    (h : spec.propertyType? resourceType item = some type) (items : List Tree) :
    parts spec resourceType (.list (some item)) (some (.array items)) =
      (items.filterMap knownEntries?).map fun entries => ⟨item, type, entries⟩ := by
  have hsome : ((fun object : String × Entries Tree => (spec.propertyType? resourceType object.1).map fun type =>
      (⟨object.1, type, object.2⟩ : Part)) ∘ fun entries => (item, entries)) =
        some ∘ fun entries => ⟨item, type, entries⟩ := by
    funext entries
    simp [h]
  rw [parts, Option.toList_some, List.flatMap_singleton, objectsIn, List.filterMap_map, hsome, List.filterMap_eq_map]

theorem knownEntries?_eq_none {value : Tree} (h : (value.isNull || Intrinsic.isCall value) = true) :
    knownEntries? value = none := by
  cases value with
  | object entries =>
    have hcall : Intrinsic.isCall (.object entries) = true := h
    rw [knownEntries?, if_pos hcall]
  | _ => rfl

/-- A value is warned about for what is inside it only. -/
theorem warningTexts_valueProblems (shape : PropertyShape) (value : Tree) :
    warningTexts (book.valueProblems resourceType name shape value) =
      (parts book.spec resourceType shape (some value)).flatMap (partWarnings book resourceType name) := by
  by_cases hskip : (value.isNull || Intrinsic.isCall value) = true
  · have hproblems : book.valueProblems resourceType name shape value = [] := by
      unfold Rulebook.valueProblems
      rw [if_pos hskip]
    have hobjects : objectsIn shape value = [] := by
      unfold objectsIn
      split
      · rw [knownEntries?_eq_none hskip]
        rfl
      · contradiction
      · rfl
    simp [hproblems, parts, hobjects, warningTexts]
  · have hfree : Intrinsic.isCall value = false := (Bool.or_eq_false_iff.1 (Bool.not_eq_true _ ▸ hskip)).2
    rw [Rulebook.valueProblems.eq_def, if_neg hskip]
    cases shape with
    | primitive => rfl
    | map => cases value <;> rfl
    | list item =>
      cases item with
      | none =>
        cases hscalars : isScalarList value with
        | true => simp [hscalars, parts, objectsIn, warningTexts]
        | false => simp [hscalars, parts, objectsIn, warningTexts, Problem.severity]
      | some item =>
        cases value with
        | array items =>
          cases htype : book.spec.propertyType? resourceType item with
          | none => simp [htype, parts, objectsIn, warningTexts]
          | some type =>
            simp only [htype, warningTexts_itemProblems, parts_of_propertyType? htype, List.flatMap_map]
        | _ => rfl
    | structured typeName =>
      cases value with
      | object entries =>
        cases htype : book.spec.propertyType? resourceType typeName with
        | none => simp [htype, parts, objectsIn, warningTexts]
        | some type => simp [htype, parts, objectsIn, knownEntries?, hfree, partWarnings]
      | _ => rfl

end

/-- What is inside a value is smaller than the value. -/
theorem sizeOf_lt_of_mem_parts {spec : Specification} {resourceType : String} {shape : PropertyShape} {value : Tree}
    {part : Part} (h : part ∈ parts spec resourceType shape (some value)) : sizeOf part.entries < sizeOf value := by
  have hknown {value : Tree} {entries : Entries Tree} (h : entries ∈ knownEntries? value) :
      sizeOf entries < sizeOf value := by
    cases value with
    | object others =>
      rw [knownEntries?] at h
      split at h
      · contradiction
      · cases h
        simp only [Tree.object.sizeOf_spec]
        omega
    | _ => contradiction
  simp only [parts, Option.toList_some, List.flatMap_singleton, List.mem_filterMap, Option.map_eq_some_iff] at h
  obtain ⟨object, hobject, type, -, rfl⟩ := h
  dsimp only
  unfold objectsIn at hobject
  split at hobject
  · obtain ⟨entries, hentries, rfl⟩ := List.mem_map.1 hobject
    exact hknown (Option.mem_toList.1 hentries)
  · obtain ⟨entries, hentries, rfl⟩ := List.mem_map.1 hobject
    obtain ⟨item, hitem, hentries⟩ := List.mem_filterMap.1 hentries
    have hsize := List.sizeOf_lt_of_mem hitem
    have hitems := hknown hentries
    simp only [Tree.array.sizeOf_spec]
    omega
  · contradiction

section

variable {book : Rulebook} {resourceType name : String}

theorem Warns.nil_parts : Warns book.disagreements (OfParts book.spec resourceType []) [] := by
  refine ⟨[], fun others => ⟨fun h => ?_, fun h => ?_⟩, rfl⟩
  · cases h
    rfl
  · subst h
    exact .nil

theorem Warns.cons_part {part : Part} {parts : List Part} {warnings others : List String}
    (h : Warns book.disagreements
      (OfEntries book.spec resourceType (resourceType ++ "." ++ part.typeName) part.type.properties part.entries) warnings)
    (hrest : Warns book.disagreements (OfParts book.spec resourceType parts) others) :
    Warns book.disagreements (OfParts book.spec resourceType (part :: parts)) (warnings ++ others) := by
  obtain ⟨checks, hchecks, rfl⟩ := h
  obtain ⟨more, hmore, rfl⟩ := hrest
  refine ⟨checks ++ more, fun others => ⟨fun h => ?_, fun h => ?_⟩, by simp⟩
  · cases h with
    | cons h hrest => rw [(hchecks _).1 h, (hmore _).1 hrest]
  · subst h
    exact .cons ((hchecks _).2 rfl) ((hmore _).2 rfl)

theorem warns_parts {parts : List Part} (h : ∀ part ∈ parts, Warns book.disagreements
      (OfEntries book.spec resourceType (resourceType ++ "." ++ part.typeName) part.type.properties part.entries)
      (partWarnings book resourceType name part)) :
    Warns book.disagreements (OfParts book.spec resourceType parts) (parts.flatMap (partWarnings book resourceType name)) := by
  induction parts with
  | nil => exact .nil_parts
  | cons part parts ih =>
    rw [List.forall_mem_cons] at h
    exact .cons_part h.1 (ih h.2)

end

/-- Entries are warned about for their listed checks. -/
theorem warns_entries (book : Rulebook) (scope : Scope) (properties : Entries Property) (entries : Entries Tree) :
    Warns book.disagreements (OfEntries book.spec scope.resourceType scope.key properties entries)
      (warningTexts (book.nestedProblems scope properties entries)) := by
  induction properties with
  | nil =>
    rw [Violations.nestedProblems_eq]
    refine ⟨[], fun others => ⟨fun h => ?_, fun h => ?_⟩, rfl⟩
    · cases h
      rfl
    · subst h
      exact .nil
  | cons e properties ih =>
    obtain ⟨name, property⟩ := e
    have hinner : Warns book.disagreements
        (OfParts book.spec scope.resourceType (parts book.spec scope.resourceType property.shape (entries.get? name)))
        (warningTexts (Violations.presenceProblems book scope name property (entries.get? name))) := by
      cases hget : entries.get? name with
      | none =>
        rw [Violations.presenceProblems, warningTexts_absence]
        exact .nil_parts
      | some value =>
        rw [Violations.presenceProblems, warningTexts_valueProblems]
        refine warns_parts fun part hpart => ?_
        have hvalue := Entries.sizeOf_get? hget
        have hsize := sizeOf_lt_of_mem_parts hpart
        exact warns_entries book (.inside scope.resourceType part.typeName name) part.type.properties part.entries
    obtain ⟨inner, hinner, htexts⟩ := hinner
    obtain ⟨others, hothers, hrest⟩ := ih
    rw [Violations.nestedProblems_eq] at hrest ⊢
    refine ⟨⟨scope.key, name, property.required⟩ :: (inner ++ others), fun checks => ⟨fun h => ?_, fun h => ?_⟩, ?_⟩
    · cases h with
      | cons hvalue hrest => rw [(hinner _).1 hvalue, (hothers _).1 hrest]
    · subst h
      exact .cons ((hinner _).2 rfl) ((hothers _).2 rfl)
    · rw [List.flatMap_cons, warningTexts_append, warningTexts_append, hrest, warningTexts_disputes, htexts,
        ← List.map_append, ← List.map_append, ← List.filter_append, ← List.filter_append]
      rfl
termination_by sizeOf entries

end Checks

structure ResourceValidation.SameErrors (judged other : ResourceValidation) : Prop where
  resource : other.resource = judged.resource
  resourceType : other.resourceType = judged.resourceType
  errors : other.errors = judged.errors

theorem ResourceValidation.SameErrors.add {judged other : ResourceValidation} (h : judged.SameErrors other)
    (diagnostics : List Diagnostic) : (judged.add diagnostics).SameErrors (other.add diagnostics) where
  resource := h.resource
  resourceType := h.resourceType
  errors := by
    have herrors := h.errors
    simp only [ResourceValidation.errors, messages_add] at herrors ⊢
    rw [herrors]

theorem ResourceValidation.SameErrors.isValid_eq {validations others : List ResourceValidation}
    (h : List.Forall₂ SameErrors validations others) : others.all isValid = validations.all isValid := by
  induction h with
  | nil => rfl
  | cons h _ ih => rw [List.all_cons, List.all_cons, ih, isValid, isValid, h.errors]

namespace Rulebook

def withTable (book : Rulebook) (table : Disagreements) : Rulebook := { book with disagreements := table }

variable (book : Rulebook) (table : Disagreements)

theorem errorTexts_nestedProblems_withTable (scope : Scope) (properties : Entries Property) (entries : Entries Tree) :
    Violations.errorTexts ((book.withTable table).nestedProblems scope properties entries) =
      Violations.errorTexts (book.nestedProblems scope properties entries) := by
  -- The violations of entries do not depend on the table, and both sides are the list of them.
  have hviolations := (Violations.ofEntries_iff (book.withTable table) scope properties entries _).2 rfl
  exact (Violations.ofEntries_iff book scope properties entries _).1 hviolations

theorem judge_sameErrors (dead : DeadEntries) (references : References) (name : String) (resource : Resource) :
    (book.judge dead references name resource).SameErrors ((book.withTable table).judge dead references name resource) where
  resource := rfl
  resourceType := rfl
  errors := by
    rw [Violations.errors_judge, Violations.errors_judge]
    have hspec : (book.withTable table).spec = book.spec := rfl
    simp only [resourceProblems, hspec]
    split
    · rfl
    · rw [Violations.errorTexts_append, Violations.errorTexts_append, errorTexts_nestedProblems_withTable]

theorem judgeTemplate_sameErrors (template : Template) (dead : DeadEntries) :
    List.Forall₂ ResourceValidation.SameErrors (book.judgeTemplate template dead)
      ((book.withTable table).judgeTemplate template dead) := by
  rw [judgeTemplate, judgeTemplate, List.forall₂_map_left_iff, List.forall₂_map_right_iff, List.forall₂_same]
  exact fun e _ => book.judge_sameErrors table dead (.of template) e.1 e.2

theorem warnings_judge (dead : DeadEntries) (references : References) (name : String) (resource : Resource) :
    (book.judge dead references name resource).warnings =
      Checks.warningTexts (book.resourceProblems dead references name resource) := by
  simp only [judge, ResourceValidation.warnings, ResourceValidation.messages, Checks.warningTexts, List.filter_map,
    List.map_map]
  rfl

end Rulebook

/-- Whether the warnings of a validation are those of the listed checks of its resource, which are made of the live
properties that its type declares. -/
def Checks.Warned (book : Rulebook) (dead : DeadEntries) (entry : String × Resource) (judged : ResourceValidation) :
    Prop :=
  judged.resource = entry.1 ∧ ∀ type, book.spec.resourceType? entry.2.resourceType = some type →
    Warns book.disagreements (OfEntries book.spec entry.2.resourceType entry.2.resourceType
      (type.properties.filter fun e => !dead.isDeadProperty entry.1 e.1) entry.2.properties) judged.warnings

theorem Checks.warned_judge (book : Rulebook) (dead : DeadEntries) (references : References) (entry : String × Resource) :
    Warned book dead entry (book.judge dead references entry.1 entry.2) := by
  refine ⟨rfl, fun type htype => ?_⟩
  have hcalls : warningTexts ((Rulebook.live dead entry.1 entry.2.properties).flatMap fun e =>
      Rulebook.referenceProblems book.spec references e.2) = [] := by
    refine warningTexts_of_errors fun problem hproblem => ?_
    obtain ⟨e, -, hproblem⟩ := List.mem_flatMap.1 hproblem
    exact Rulebook.severity_of_mem_referenceProblems hproblem
  rw [Rulebook.warnings_judge, Rulebook.resourceProblems, htype]
  dsimp only
  rw [warningTexts_append, hcalls, List.append_nil]
  exact warns_entries book (.ofResource entry.2.resourceType) _ _

namespace Validator

def withTable (v : Validator) (table : Disagreements) : Validator :=
  { v with settings := { v.settings with disagreements := table } }

theorem entry_sameErrors (v : Validator) (table : Disagreements) (template : Template) (dead : DeadEntries)
    (e : String × Resource) : (v.entry template dead e).SameErrors ((v.withTable table).entry template dead e) := by
  have hjudge := v.book.judge_sameErrors table dead (.of template) e.1 e.2
  have hresource (book : Rulebook) : (book.judge dead (.of template) e.1 e.2).resource = e.1 := rfl
  simp only [entry, applyRules, hresource]
  cases template.resources.get? e.1 with
  | none => exact hjudge
  | some resource => exact hjudge.add _

theorem resources_sameErrors (v : Validator) (table : Disagreements) (parsed : Parsed) :
    List.Forall₂ ResourceValidation.SameErrors (v.validateParsed parsed).resources
      ((v.withTable table).validateParsed parsed).resources := by
  rw [resources_validateParsed, resources_validateParsed, List.forall₂_map_left_iff, List.forall₂_map_right_iff,
    List.forall₂_same]
  exact fun e _ => v.entry_sameErrors table parsed.template parsed.reconciliation.dead e

/-- Under another table a report, and the judgement that it starts from, has the same entries with the same errors,
and so the same verdict. The judgement warns of each live resource once for each check that the table lists. -/
theorem validateParsed_withTable (v : Validator) (table : Disagreements) (parsed : Parsed) :
    List.Forall₂ ResourceValidation.SameErrors (v.validateParsed parsed).resources
        ((v.withTable table).validateParsed parsed).resources ∧
      ((v.withTable table).validateParsed parsed).isValid = (v.validateParsed parsed).isValid ∧
      List.Forall₂ ResourceValidation.SameErrors (v.book.judgeTemplate parsed.template parsed.reconciliation.dead)
        ((v.withTable table).book.judgeTemplate parsed.template parsed.reconciliation.dead) ∧
      List.Forall₂ (Checks.Warned v.book parsed.reconciliation.dead)
        (parsed.template.resources.filter fun e => !parsed.reconciliation.dead.isDeadResource e.1)
        (v.book.judgeTemplate parsed.template parsed.reconciliation.dead) := by
  have hresources := v.resources_sameErrors table parsed
  refine ⟨hresources, ResourceValidation.SameErrors.isValid_eq hresources, v.book.judgeTemplate_sameErrors table _ _, ?_⟩
  rw [Rulebook.judgeTemplate, List.forall₂_map_right_iff, List.forall₂_same]
  exact fun e _ => Checks.warned_judge v.book parsed.reconciliation.dead (.of parsed.template) e

end Validator

end CloudTemplate
