import CloudTemplate.Proofs.Validation.DeadData
import Mathlib.Algebra.Order.BigOperators.Group.List
import Mathlib.Algebra.Order.Ring.Nat
/-! More names. A template that declares one more parameter, mapping or resource is judged as it was before in
all its other resources, except that calls may find what they name: each has as many errors as before or fewer,
and the same warnings. So whether a valid template stays valid depends on what was added alone. -/
namespace CloudTemplate

inductive Addition where
  | parameter (name : String) (value : Tree)
  | mapping (name : String) (value : Tree)
  | resource (name : String) (value : Resource)

inductive Entries.Adds {α : Type} (name : String) (value : α) : Entries α → Entries α → Prop
  | intro {before after : Entries α} (hfresh : name ∉ Entries.keys (before ++ after)) :
      Entries.Adds name value (before ++ after) (before ++ (name, value) :: after)

/-- Whether two templates that have been read are the same up to an addition. The dead data of a new resource can
be anything. -/
inductive Parsed.Adds (parsed larger : Parsed) : Addition → Prop
  | parameter {name : String} {value : Tree}
      (h : Entries.Adds name value parsed.template.parameters larger.template.parameters)
      (hrest : larger.template = { parsed.template with parameters := larger.template.parameters })
      (hdead : larger.reconciliation.dead = parsed.reconciliation.dead) : Adds parsed larger (.parameter name value)
  | mapping {name : String} {value : Tree}
      (h : Entries.Adds name value parsed.template.mappings larger.template.mappings)
      (hrest : larger.template = { parsed.template with mappings := larger.template.mappings })
      (hdead : larger.reconciliation.dead = parsed.reconciliation.dead) : Adds parsed larger (.mapping name value)
  | resource {name : String} {value : Resource}
      (h : Entries.Adds name value parsed.template.resources larger.template.resources)
      (hrest : larger.template = { parsed.template with resources := larger.template.resources })
      (hresources : ∀ other, other ≠ name →
        larger.reconciliation.dead.isDeadResource other = parsed.reconciliation.dead.isDeadResource other)
      (hproperties : ∀ other property, other ≠ name → larger.reconciliation.dead.isDeadProperty other property =
        parsed.reconciliation.dead.isDeadProperty other property) : Adds parsed larger (.resource name value)

def Addition.resource? : Addition → Option (String × Resource)
  | .resource name value => some (name, value)
  | _ => none

/-- The entry of what is added in the report on the larger template: only a live resource has one. -/
def Addition.validation? (added : Addition) (v : Validator) (larger : Parsed) : Option ResourceValidation :=
  (added.resource?.filter fun e => !larger.reconciliation.dead.isDeadResource e.1).map
    (v.entry larger.template larger.reconciliation.dead)

structure ResourceValidation.NoWorse (judged later : ResourceValidation) : Prop where
  resource : later.resource = judged.resource
  resourceType : later.resourceType = judged.resourceType
  errors : later.errors.length ≤ judged.errors.length
  warnings : later.warnings = judged.warnings

structure References.Below (references larger : References) : Prop where
  isReferable : ∀ name, references.isReferable name = true → larger.isReferable name = true
  resourceType? : ∀ name type, references.resourceType? name = some type → larger.resourceType? name = some type
  hasMapping : ∀ name, references.hasMapping name = true → larger.hasMapping name = true

namespace Entries

variable {α : Type} {name : String} {value : α} {entries larger : Entries α}

theorem Adds.not_mem_keys (h : Adds name value entries larger) : name ∉ entries.keys := by
  cases h with
  | intro hfresh => exact hfresh

theorem Adds.mem_keys (h : Adds name value entries larger) {other : String} (hmem : other ∈ entries.keys) :
    other ∈ larger.keys := by
  cases h with
  | intro =>
    rw [keys, List.map_append, List.mem_append] at hmem ⊢
    exact hmem.imp_right (List.mem_cons_of_mem name)

theorem Adds.get?_of_ne (h : Adds name value entries larger) {other : String} (hne : other ≠ name) :
    larger.get? other = entries.get? other := by
  cases h with
  | @intro before after hfresh =>
    clear hfresh
    induction before with
    | nil => rw [List.nil_append, get?_cons, if_neg hne.symm, List.nil_append]
    | cons e before ih => rw [List.cons_append, List.cons_append, get?_cons, get?_cons, ih]

theorem Adds.map {β : Type} (f : α → β) (h : Adds name value entries larger) :
    Adds name (f value) (entries.map fun e => (e.1, f e.2)) (larger.map fun e => (e.1, f e.2)) := by
  cases h with
  | @intro before after hfresh =>
    rw [List.map_append, List.map_append, List.map_cons]
    refine .intro ?_
    rw [← List.map_append, keys, List.map_map]
    exact hfresh

end Entries

namespace References

theorem isReferable_iff {references : References} {name : String} :
    references.isReferable name = true ↔
      isPseudo name = true ∨ name ∈ references.parameters ∨ name ∈ references.resources.keys := by
  simp only [isReferable, Bool.or_eq_true, List.contains_iff_mem, Entries.contains_iff_mem_keys, or_assoc]

end References

theorem Parsed.Adds.below {parsed larger : Parsed} {added : Addition} (h : parsed.Adds larger added) :
    (References.of parsed.template).Below (.of larger.template) := by
  cases h with
  | parameter h hrest =>
    rw [hrest]
    refine ⟨fun name hname => ?_, fun _ _ h => h, fun _ h => h⟩
    rw [References.isReferable_iff] at hname ⊢
    exact hname.imp_right (Or.imp_left h.mem_keys)
  | mapping h hrest =>
    rw [hrest]
    refine ⟨fun _ h => h, fun _ _ h => h, fun name hname => ?_⟩
    rw [References.hasMapping, List.contains_iff_mem] at hname ⊢
    exact h.mem_keys hname
  | @resource name _ h hrest =>
    rw [hrest]
    have hadds := h.map Resource.resourceType
    refine ⟨fun name hname => ?_, fun other type htype => ?_, fun _ h => h⟩
    · rw [References.isReferable_iff] at hname ⊢
      exact hname.imp_right (Or.imp_right hadds.mem_keys)
    · have hne : other ≠ name := by
        rintro rfl
        exact Option.some_ne_none type (htype.symm.trans (Entries.get?_eq_none_iff.2 hadds.not_mem_keys))
      exact (hadds.get?_of_ne hne).trans htype

namespace Rulebook

variable {spec : Specification} {references larger : References}

/-- A call whose resource has become known can lack the attribute instead. -/
theorem length_attributeProblems_le (h : references.Below larger) (argument : Tree) :
    (attributeProblems spec larger argument).length ≤ (attributeProblems spec references argument).length := by
  obtain ⟨target, name, htarget⟩ : ∃ target name, attributeTarget argument = (target, name) := ⟨_, _, rfl⟩
  simp only [attributeProblems, htarget]
  cases target with
  | none => exact Nat.le_refl _
  | some resource =>
    dsimp only
    cases htype : references.resourceType? resource with
    | some type => rw [h.resourceType? resource type htype]
    | none =>
      repeat' split
      all_goals simp

theorem length_callProblems_le (h : references.Below larger) (f : Intrinsic) (argument : Tree) :
    (callProblems spec larger f argument).length ≤ (callProblems spec references f argument).length := by
  cases f with
  | findInMap =>
    cases hname : mappingName argument with
    | none => simp only [callProblems, hname, Nat.le_refl]
    | some name =>
      simp only [callProblems, hname]
      cases hhas : references.hasMapping name with
      | true => simp [h.hasMapping name hhas]
      | false => split <;> simp
  | ref =>
    cases argument with
    | string name =>
      simp only [callProblems]
      cases hreferable : references.isReferable name with
      | true => simp [h.isReferable name hreferable]
      | false => split <;> simp
    | _ => exact Nat.le_refl _
  | getAtt => exact length_attributeProblems_le h argument
  | _ => exact Nat.le_refl _

theorem length_referenceProblems_le (h : references.Below larger) (tree : Tree) :
    (referenceProblems spec larger tree).length ≤ (referenceProblems spec references tree).length := by
  rw [referenceProblems_eq_flatMap, referenceProblems_eq_flatMap, List.length_flatMap, List.length_flatMap]
  refine List.sum_le_sum fun call _ => ?_
  rw [problemsOfCall, problemsOfCall, List.length_append, List.length_append]
  exact Nat.add_le_add_left (length_callProblems_le h call.1 call.2) _

end Rulebook

namespace ResourceValidation

theorem NoWorse.add {judged later : ResourceValidation} (h : judged.NoWorse later) (diagnostics : List Diagnostic) :
    (judged.add diagnostics).NoWorse (later.add diagnostics) where
  resource := h.resource
  resourceType := h.resourceType
  errors := by
    have herrors := h.errors
    simp only [ResourceValidation.errors, messages_add, List.length_append] at herrors ⊢
    omega
  warnings := by
    have hwarnings := h.warnings
    simp only [ResourceValidation.warnings, messages_add] at hwarnings ⊢
    rw [hwarnings]

theorem NoWorse.isValid {judged later : ResourceValidation} (h : judged.NoWorse later) (hvalid : judged.isValid = true) :
    later.isValid = true := by
  rw [ResourceValidation.isValid, List.isEmpty_iff] at hvalid ⊢
  exact List.eq_nil_of_length_eq_zero (Nat.le_zero.1 (by simpa [hvalid] using h.errors))

theorem NoWorse.isValid_of_forall₂ {validations later : List ResourceValidation} (h : List.Forall₂ NoWorse validations later)
    (hvalid : ∀ judged ∈ validations, judged.isValid = true) : ∀ judged ∈ later, judged.isValid = true := by
  induction h with
  | nil => exact fun _ hmem => absurd hmem List.not_mem_nil
  | cons h _ ih =>
    rw [List.forall_mem_cons] at hvalid ⊢
    exact ⟨h.isValid hvalid.1, ih hvalid.2⟩

/-- Errors at the end are compared by their number. -/
theorem noWorse_add (judged : ResourceValidation) {diagnostics later : List Diagnostic}
    (hdiagnostics : ∀ d ∈ diagnostics, d.severity = .error) (hlater : ∀ d ∈ later, d.severity = .error)
    (hlength : later.length ≤ diagnostics.length) : (judged.add diagnostics).NoWorse (judged.add later) := by
  have herrors {ds : List Diagnostic} (hds : ∀ d ∈ ds, d.severity = .error) :
      (judged.add ds).errors.length = judged.errors.length + ds.length := by
    have hfilter : (ds.filter fun d => d.severity == .error) = ds := by
      rw [List.filter_eq_self]
      exact fun d hd => beq_iff_eq.2 (hds d hd)
    rw [errors, errors, messages_add, hfilter, List.length_append, List.length_map]
  have hwarnings {ds : List Diagnostic} (hds : ∀ d ∈ ds, d.severity = .error) :
      (judged.add ds).warnings = judged.warnings := by
    have hfilter : (ds.filter fun d => d.severity == .warning) = [] := by
      rw [List.filter_eq_nil_iff]
      exact fun d hd => by simp [hds d hd]
    rw [warnings, warnings, messages_add, hfilter, List.map_nil, List.append_nil]
  refine ⟨rfl, rfl, ?_, ?_⟩
  · rw [herrors hdiagnostics, herrors hlater]
    exact Nat.add_le_add_left hlength _
  · rw [hwarnings hdiagnostics, hwarnings hlater]

theorem NoWorse.refl (judged : ResourceValidation) : judged.NoWorse judged := ⟨rfl, rfl, Nat.le_refl _, rfl⟩

end ResourceValidation

theorem Rulebook.judge_noWorse (book : Rulebook) (dead : DeadEntries) {references larger : References}
    (h : references.Below larger) (name : String) (resource : Resource) :
    (book.judge dead references name resource).NoWorse (book.judge dead larger name resource) := by
  cases htype : book.spec.resourceType? resource.resourceType with
  | none =>
    simp only [judge, resourceProblems, htype]
    exact .refl _
  | some type =>
    let declared := book.nestedProblems (.ofResource resource.resourceType) (live dead name type.properties)
      resource.properties
    let calls (references : References) : List Problem :=
      (live dead name resource.properties).flatMap fun e => referenceProblems book.spec references e.2
    have hjudge (references : References) : book.judge dead references name resource =
        ResourceValidation.add ⟨name, resource.resourceType, declared.map Problem.diagnostic⟩
          ((calls references).map Problem.diagnostic) := by
      simp only [judge, resourceProblems, htype, ResourceValidation.add, List.map_append, declared, calls]
    have hseverity (references : References) :
        ∀ d ∈ (calls references).map Problem.diagnostic, d.severity = .error := by
      intro d hd
      obtain ⟨problem, hproblem, rfl⟩ := List.mem_map.1 hd
      obtain ⟨e, -, hproblem⟩ := List.mem_flatMap.1 hproblem
      exact severity_of_mem_referenceProblems hproblem
    have hlength : (calls larger).length ≤ (calls references).length := by
      rw [List.length_flatMap, List.length_flatMap]
      exact List.sum_le_sum fun e _ => length_referenceProblems_le h e.2
    rw [hjudge, hjudge]
    exact ResourceValidation.noWorse_add _ (hseverity references) (hseverity larger) (by simpa using hlength)

section

variable {parsed larger : Parsed} {added : Addition}

def Addition.Spares (added : Addition) (name : String) : Prop := ∀ e ∈ added.resource?, name ≠ e.1

theorem Parsed.Adds.dead (h : parsed.Adds larger added) {name : String} (hname : added.Spares name) :
    larger.reconciliation.dead.isDeadResource name = parsed.reconciliation.dead.isDeadResource name ∧
      ∀ property, larger.reconciliation.dead.isDeadProperty name property =
        parsed.reconciliation.dead.isDeadProperty name property := by
  cases h with
  | parameter _ _ hdead => exact ⟨by rw [hdead], fun _ => by rw [hdead]⟩
  | mapping _ _ hdead => exact ⟨by rw [hdead], fun _ => by rw [hdead]⟩
  | resource _ _ hresources hproperties =>
    have hne := hname _ rfl
    exact ⟨hresources name hne, fun property => hproperties name property hne⟩

theorem Parsed.Adds.get?_resources (h : parsed.Adds larger added) {name : String} (hname : added.Spares name) :
    larger.template.resources.get? name = parsed.template.resources.get? name := by
  cases h with
  | parameter _ hrest => rw [hrest]
  | mapping _ hrest => rw [hrest]
  | resource h => exact h.get?_of_ne (hname _ rfl)

theorem Parsed.Adds.resources (h : parsed.Adds larger added) :
    ∃ before after, parsed.template.resources = before ++ after ∧
      larger.template.resources = before ++ added.resource?.toList ++ after ∧
      ∀ e ∈ before ++ after, added.Spares e.1 := by
  cases h with
  | parameter _ hrest =>
    have hresources : larger.template.resources = parsed.template.resources := by rw [hrest]
    exact ⟨_, [], (List.append_nil _).symm, by simp [hresources, Addition.resource?], fun e _ new hnew => nomatch hnew⟩
  | mapping _ hrest =>
    have hresources : larger.template.resources = parsed.template.resources := by rw [hrest]
    exact ⟨_, [], (List.append_nil _).symm, by simp [hresources, Addition.resource?], fun e _ new hnew => nomatch hnew⟩
  | @resource name value h =>
    generalize parsed.template.resources = resources at h
    generalize larger.template.resources = others at h
    cases h with
    | @intro before after hfresh =>
      refine ⟨before, after, rfl, by simp [Addition.resource?], fun e he new hnew heq => hfresh ?_⟩
      cases hnew
      exact List.mem_map.2 ⟨e, he, heq⟩

namespace Validator

theorem entry_noWorse (v : Validator) (h : parsed.Adds larger added) {e : String × Resource} (hname : added.Spares e.1) :
    (v.entry parsed.template parsed.reconciliation.dead e).NoWorse
      (v.entry larger.template larger.reconciliation.dead e) := by
  have hdead := (h.dead hname).2
  have hjudge : (v.book.judge parsed.reconciliation.dead (.of parsed.template) e.1 e.2).NoWorse
      (v.book.judge larger.reconciliation.dead (.of larger.template) e.1 e.2) := by
    have hlive : v.book.judge larger.reconciliation.dead (.of larger.template) e.1 e.2 =
        v.book.judge parsed.reconciliation.dead (.of larger.template) e.1 e.2 := by
      simp only [Rulebook.judge, Rulebook.resourceProblems, Rulebook.live_eq hdead]
    rw [hlive]
    exact v.book.judge_noWorse _ h.below e.1 e.2
  have hresource (template : Template) (dead : DeadEntries) :
      (v.book.judge dead (.of template) e.1 e.2).resource = e.1 := rfl
  simp only [entry, applyRules, hresource, h.get?_resources hname]
  cases parsed.template.resources.get? e.1 with
  | none => exact hjudge
  | some resource =>
    simp only [liveResource, Rulebook.live_eq hdead]
    exact hjudge.add _

theorem entries_noWorse (v : Validator) (h : parsed.Adds larger added) {resources : Entries Resource}
    (hnames : ∀ e ∈ resources, added.Spares e.1) :
    List.Forall₂ ResourceValidation.NoWorse
      ((resources.filter fun e => !parsed.reconciliation.dead.isDeadResource e.1).map
        (v.entry parsed.template parsed.reconciliation.dead))
      ((resources.filter fun e => !larger.reconciliation.dead.isDeadResource e.1).map
        (v.entry larger.template larger.reconciliation.dead)) := by
  have hfilter : (resources.filter fun e => !larger.reconciliation.dead.isDeadResource e.1) =
      resources.filter fun e => !parsed.reconciliation.dead.isDeadResource e.1 :=
    List.filter_congr fun e he => by rw [(h.dead (hnames e he)).1]
  rw [hfilter, List.forall₂_map_left_iff, List.forall₂_map_right_iff, List.forall₂_same]
  exact fun e he => v.entry_noWorse h (hnames e (List.mem_of_mem_filter he))

/-- The report on a larger template is that on the template, no worse, around the entry of what was added. -/
theorem resources_of_adds (v : Validator) (h : parsed.Adds larger added) :
    ∃ front back, (v.validateParsed larger).resources = front ++ (added.validation? v larger).toList ++ back ∧
      List.Forall₂ ResourceValidation.NoWorse (v.validateParsed parsed).resources (front ++ back) := by
  obtain ⟨before, after, hresources, hlarger, hnames⟩ := h.resources
  have hentry : (added.validation? v larger).toList =
      (added.resource?.toList.filter fun e => !larger.reconciliation.dead.isDeadResource e.1).map
        (v.entry larger.template larger.reconciliation.dead) := by
    rw [Addition.validation?, Option.toList_map, Option.toList_filter]
  rw [resources_validateParsed, resources_validateParsed, hresources, hlarger, hentry]
  refine ⟨(before.filter fun e => !larger.reconciliation.dead.isDeadResource e.1).map
    (v.entry larger.template larger.reconciliation.dead),
    (after.filter fun e => !larger.reconciliation.dead.isDeadResource e.1).map
      (v.entry larger.template larger.reconciliation.dead), ?_, ?_⟩
  · simp only [List.filter_append, List.map_append]
  · rw [← List.map_append, ← List.filter_append]
    exact v.entries_noWorse h hnames

/-- Who declares more is judged no worse elsewhere, so a valid template stays valid unless what was added is a
resource with an error itself. Such a resource is never made up for. -/
theorem validateParsed_of_adds (v : Validator) (h : parsed.Adds larger added) :
    (∃ front back, (v.validateParsed larger).resources = front ++ (added.validation? v larger).toList ++ back ∧
      List.Forall₂ ResourceValidation.NoWorse (v.validateParsed parsed).resources (front ++ back)) ∧
    ((v.validateParsed parsed).isValid = true →
      ((v.validateParsed larger).isValid = true ↔ ∀ judged ∈ added.validation? v larger, judged.errors = [])) ∧
    ∀ judged ∈ added.validation? v larger, judged.errors ≠ [] → (v.validateParsed larger).isValid = false := by
  obtain ⟨front, back, hresources, hforall⟩ := v.resources_of_adds h
  have hisValid : (v.validateParsed larger).isValid = true ↔
      (∀ judged ∈ front ++ back, judged.isValid = true) ∧ ∀ judged ∈ added.validation? v larger, judged.errors = [] := by
    simp only [Report.isValid, List.all_eq_true, hresources, List.mem_append, Option.mem_toList, or_imp, forall_and,
      ResourceValidation.isValid, List.isEmpty_iff]
    tauto
  refine ⟨⟨front, back, hresources, hforall⟩, fun hvalid => ?_, fun judged hjudged herrors => ?_⟩
  · rw [Report.isValid, List.all_eq_true] at hvalid
    rw [hisValid, and_iff_right (ResourceValidation.NoWorse.isValid_of_forall₂ hforall hvalid)]
  · rw [Bool.eq_false_iff]
    exact fun hvalid => herrors ((hisValid.1 hvalid).2 judged hjudged)

def readerWith (tables : Entries Resource) : Parsed where
  format := .json
  template := { Template.blank with
    resources := ("Reader", { Resource.blank with
      resourceType := "Reader", properties := [("Table", .object [("Fn::GetAtt", .string "Store.Name")])] }) :: tables }
  tree := .null
  reconciliation := ⟨0, .none⟩

/-- A call that finds its table asks it for an attribute that it lacks. -/
theorem validateParsed_readerWith :
    let table : Resource := { Resource.blank with resourceType := "Table" }
    let v := Validator.make (((Specification.empty "1").withResourceType "Reader" .blank).withResourceType "Table" .blank)
      .standard
    (readerWith []).Adds (readerWith [("Store", table)]) (.resource "Store" table) ∧
      (v.validateParsed (readerWith [])).resources.map ResourceValidation.errors =
        [["Fn::GetAtt target Store does not name a resource"]] ∧
      (v.validateParsed (readerWith [("Store", table)])).resources.map ResourceValidation.errors =
        [["Store has no attribute Name for Fn::GetAtt"], []] ∧
      ∀ judged ∈ (Addition.resource "Store" table).validation? v (readerWith [("Store", table)]), judged.errors ≠ [] →
        (v.validateParsed (readerWith [("Store", table)])).isValid = false := by
  intro table v
  have hentries : Entries.Adds "Store" table ((readerWith []).template.resources ++ [])
      ((readerWith []).template.resources ++ ("Store", table) :: []) := .intro (by decide)
  have hadds : (readerWith []).Adds (readerWith [("Store", table)]) (.resource "Store" table) :=
    .resource hentries rfl (fun _ _ => rfl) fun _ _ _ => rfl
  refine ⟨hadds, ?_, ?_, (v.validateParsed_of_adds hadds).2.2⟩
  all_goals
    rw [validateParsed]
    simp only [Rulebook.judgeTemplate, Rulebook.judge, Rulebook.resourceProblems, Violations.nestedProblems_eq]
    decide

end Validator

end

end CloudTemplate
