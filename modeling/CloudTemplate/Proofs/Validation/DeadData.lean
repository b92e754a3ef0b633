import CloudTemplate.Proofs.Validation.Calls
import CloudTemplate.Proofs.Validation.Judgement
import CloudTemplate.Validation.Pipeline
/-! Dead data and reports. Two templates that differ in dead properties only, and in what dead resources
hold, have the same report; and whatever a report says about a resource is said about something live. -/
namespace CloudTemplate

structure Resource.AgreesWith (dead : DeadEntries) (name : String) (resource other : Resource) : Prop where
  resourceType : resource.resourceType = other.resourceType
  properties : dead.isDeadResource name = false →
    (resource.properties.filter fun e => !dead.isDeadProperty name e.1) =
      other.properties.filter fun e => !dead.isDeadProperty name e.1
  attrs : dead.isDeadResource name = false → { resource with properties := [] } = { other with properties := [] }

/-- Whether two templates that have been read differ in dead data only. Of parameters and mappings the names
have to be the same, in any order; of what else a template holds nothing has to. -/
structure Parsed.AgreesWith (parsed other : Parsed) : Prop where
  deadResources : ∀ name, other.reconciliation.dead.isDeadResource name = parsed.reconciliation.dead.isDeadResource name
  deadProperties : ∀ name property, other.reconciliation.dead.isDeadProperty name property =
    parsed.reconciliation.dead.isDeadProperty name property
  notice : other.reconciliation.notice = parsed.reconciliation.notice
  resources : List.Forall₂
    (fun e f : String × Resource => e.1 = f.1 ∧ e.2.AgreesWith parsed.reconciliation.dead e.1 f.2)
    parsed.template.resources other.template.resources
  parameters : ∀ name, name ∈ parsed.template.parameters.keys ↔ name ∈ other.template.parameters.keys
  mappings : ∀ name, name ∈ parsed.template.mappings.keys ↔ name ∈ other.template.mappings.keys

/-- What a diagnostic about a resource comes from. Dead properties are no source of any. -/
inductive ComesFromLive (v : Validator) (template : Template) (dead : DeadEntries) (name : String)
    (resource : Resource) : Diagnostic → Prop
  | type (h : v.spec.resourceType? resource.resourceType = none) :
      ComesFromLive v template dead name resource Problem.unknownType.diagnostic
  | declared {type : ResourceType} {property : String} {declaration : Property} {problem : Problem}
      (htype : v.spec.resourceType? resource.resourceType = some type)
      (hdeclared : (property, declaration) ∈ type.properties) (hlive : dead.isDeadProperty name property = false)
      (h : problem ∈ v.book.nestedProblems (.ofResource resource.resourceType) [(property, declaration)]
        resource.properties) : ComesFromLive v template dead name resource problem.diagnostic
  | written {property : String} {value : Tree} {problem : Problem} (hwritten : (property, value) ∈ resource.properties)
      (hlive : dead.isDeadProperty name property = false)
      (h : problem ∈ Rulebook.referenceProblems v.spec (.of template) value) :
      ComesFromLive v template dead name resource problem.diagnostic
  | rule {rule : Rule} {d : Diagnostic} (hrule : v.rules.get? resource.resourceType = some rule)
      (h : d ∈ rule.check name
        { resource with properties := resource.properties.filter fun e => !dead.isDeadProperty name e.1 }) :
      ComesFromLive v template dead name resource d

structure References.Alike (references other : References) : Prop where
  isReferable : ∀ name, other.isReferable name = references.isReferable name
  resourceType? : ∀ name, other.resourceType? name = references.resourceType? name
  hasMapping : ∀ name, other.hasMapping name = references.hasMapping name

theorem contains_eq_of_mem_iff {names others : List String} (h : ∀ name, name ∈ names ↔ name ∈ others) (name : String) :
    others.contains name = names.contains name := by
  rw [Bool.eq_iff_iff, List.contains_iff_mem, List.contains_iff_mem, h]

theorem Parsed.AgreesWith.alike {parsed other : Parsed} (h : parsed.AgreesWith other) :
    (References.of parsed.template).Alike (.of other.template) := by
  have hresources : (References.of other.template).resources = (References.of parsed.template).resources := by
    have hmap (e f : String × Resource) (h : e.1 = f.1 ∧ e.2.AgreesWith parsed.reconciliation.dead e.1 f.2) :
        (e.1, e.2.resourceType) = (f.1, f.2.resourceType) := by rw [h.1, h.2.resourceType]
    have hforall := List.forall₂_map_left_iff.2 (List.forall₂_map_right_iff.2 (h.resources.imp hmap))
    exact (List.forall₂_eq_eq_eq ▸ hforall).symm
  refine ⟨fun name => ?_, fun name => ?_, fun name => ?_⟩
  · have hparameters := contains_eq_of_mem_iff h.parameters name
    rw [References.isReferable, References.isReferable, hresources]
    exact congrArg (References.isPseudo name || · || _) hparameters
  · rw [References.resourceType?, References.resourceType?, hresources]
  · exact contains_eq_of_mem_iff h.mappings name

namespace Rulebook

theorem problemsOfCall_eq (spec : Specification) {references other : References} (h : references.Alike other)
    (call : Intrinsic × Tree) : problemsOfCall spec other call = problemsOfCall spec references call := by
  simp only [problemsOfCall, callProblems, attributeProblems, h.isReferable, h.resourceType?, h.hasMapping]

theorem referenceProblems_eq (spec : Specification) {references other : References} (h : references.Alike other)
    (tree : Tree) : referenceProblems spec other tree = referenceProblems spec references tree := by
  rw [referenceProblems_eq_flatMap, referenceProblems_eq_flatMap, funext (problemsOfCall_eq spec h)]

theorem get?_live {α : Type} (dead : DeadEntries) (resource : String) (entries : Entries α) (name : String) :
    (live dead resource entries).get? name =
      if dead.isDeadProperty resource name then none else entries.get? name := by
  induction entries with
  | nil => simp [live, Entries.get?]
  | cons e rest ih =>
    have hlive : live dead resource (e :: rest) =
        if dead.isDeadProperty resource e.1 then live dead resource rest else e :: live dead resource rest := by
      rw [live, List.filter_cons]
      cases dead.isDeadProperty resource e.1 <;> rfl
    rw [hlive, Entries.get?_cons]
    by_cases hdead : dead.isDeadProperty resource e.1 = true
    · rw [if_pos hdead, ih]
      split
      · rfl
      · rename_i hname
        rw [if_neg fun heq => hname (by rw [← heq, hdead])]
    · rw [if_neg hdead, Entries.get?_cons, ih]
      by_cases hname : e.1 = name
      · rw [← hname, if_pos rfl, if_neg hdead, if_pos rfl]
      · rw [if_neg hname, if_neg hname]

theorem live_eq {α : Type} {dead other : DeadEntries} {resource : String}
    (h : ∀ property, other.isDeadProperty resource property = dead.isDeadProperty resource property)
    (entries : Entries α) : live other resource entries = live dead resource entries := by
  simp only [live, h]

/-- Live declarations are judged by live properties. -/
theorem nestedProblems_live (book : Rulebook) (scope : Scope) (dead : DeadEntries) (name : String)
    (properties : Entries Property) (entries : Entries Tree) :
    book.nestedProblems scope (live dead name properties) (live dead name entries) =
      book.nestedProblems scope (live dead name properties) entries := by
  rw [Violations.nestedProblems_eq, Violations.nestedProblems_eq]
  refine List.flatMap_congr fun e he => ?_
  have hlive : dead.isDeadProperty name e.1 = false := by simpa using (List.mem_filter.1 he).2
  rw [get?_live, if_neg (by simp [hlive])]

/-- Problems of a resource are those of its live properties. -/
theorem resourceProblems_live (book : Rulebook) (dead : DeadEntries) (references : References) (name : String)
    (resource : Resource) :
    book.resourceProblems dead references name (Validator.liveResource dead name resource) =
      book.resourceProblems dead references name resource := by
  have hlive : live dead name (live dead name resource.properties) = live dead name resource.properties := by
    rw [live, live, List.filter_filter]
    simp
  simp only [resourceProblems, Validator.liveResource, nestedProblems_live, hlive]

theorem resourceProblems_eq (book : Rulebook) (dead : DeadEntries) {references other : References}
    (h : references.Alike other) (name : String) (resource : Resource) :
    book.resourceProblems dead other name resource = book.resourceProblems dead references name resource := by
  simp only [resourceProblems, referenceProblems_eq book.spec h]

end Rulebook

theorem Resource.AgreesWith.liveResource {dead : DeadEntries} {name : String} {resource other : Resource}
    (h : resource.AgreesWith dead name other) (hlive : dead.isDeadResource name = false) :
    Validator.liveResource dead name resource = Validator.liveResource dead name other := by
  have hproperties := h.properties hlive
  have hattrs := h.attrs hlive
  cases resource
  cases other
  simp_all [Validator.liveResource, Rulebook.live]

theorem Rulebook.judge_eq (book : Rulebook) {dead others : DeadEntries} {references other : References}
    (hnames : references.Alike other) {name : String} {resource changed : Resource}
    (hdead : ∀ property, others.isDeadProperty name property = dead.isDeadProperty name property)
    (h : resource.AgreesWith dead name changed) (hlive : dead.isDeadResource name = false) :
    book.judge others other name changed = book.judge dead references name resource := by
  have hproblems : book.resourceProblems others other name changed =
      book.resourceProblems dead references name resource := by
    have hchanged : book.resourceProblems others other name changed = book.resourceProblems dead other name changed := by
      simp only [resourceProblems, live_eq hdead]
    rw [hchanged, resourceProblems_eq book dead hnames, ← resourceProblems_live, ← h.liveResource hlive,
      resourceProblems_live]
  rw [judge, judge, hproblems, h.resourceType]

theorem Entries.get?_of_forall₂ {α β : Type} {r : String → α → β → Prop} {entries : Entries α} {others : Entries β}
    (h : List.Forall₂ (fun e f => e.1 = f.1 ∧ r e.1 e.2 f.2) entries others) (name : String) :
    Option.Rel (r name) (entries.get? name) (others.get? name) := by
  induction h with
  | nil => exact .none
  | @cons e f entries others h _ ih =>
    rw [Entries.get?_cons, Entries.get?_cons, ← h.1]
    split
    · rename_i hname
      exact .some (hname ▸ h.2)
    · exact ih

namespace Validator

def entry (v : Validator) (template : Template) (dead : DeadEntries) (e : String × Resource) : ResourceValidation :=
  v.applyRules template dead (v.book.judge dead (.of template) e.1 e.2)

theorem resources_validateParsed (v : Validator) (parsed : Parsed) :
    (v.validateParsed parsed).resources =
      (parsed.template.resources.filter fun e => !parsed.reconciliation.dead.isDeadResource e.1).map
        (v.entry parsed.template parsed.reconciliation.dead) := by
  rw [validateParsed, Rulebook.judgeTemplate, List.map_map]
  rfl

theorem resource_entry (v : Validator) (template : Template) (dead : DeadEntries) (e : String × Resource) :
    (v.entry template dead e).resource = e.1 := by
  rw [entry, applyRules]
  split <;> rfl

theorem entry_eq (v : Validator) {parsed other : Parsed} (h : parsed.AgreesWith other) {e f : String × Resource}
    (hname : e.1 = f.1) (hagrees : e.2.AgreesWith parsed.reconciliation.dead e.1 f.2)
    (hlive : parsed.reconciliation.dead.isDeadResource e.1 = false) :
    v.entry other.template other.reconciliation.dead f = v.entry parsed.template parsed.reconciliation.dead e := by
  have hjudged := v.book.judge_eq h.alike (h.deadProperties e.1) hagrees hlive
  have hresource (judged : ResourceValidation) (hjudged : judged.resource = e.1) :
      v.applyRules other.template other.reconciliation.dead judged =
        v.applyRules parsed.template parsed.reconciliation.dead judged := by
    have hget := Entries.get?_of_forall₂ h.resources e.1
    rw [applyRules, applyRules, hjudged]
    generalize parsed.template.resources.get? e.1 = found at hget
    generalize other.template.resources.get? e.1 = changed at hget
    cases hget with
    | none => rfl
    | some hagrees =>
      dsimp only
      rw [hagrees.liveResource hlive, liveResource, liveResource, Rulebook.live_eq (h.deadProperties e.1)]
  rw [entry, entry, ← hname, hjudged]
  exact hresource _ rfl

theorem comesFromLive_of_mem_judge (v : Validator) (template : Template) (dead : DeadEntries) (e : String × Resource)
    {d : Diagnostic} (h : d ∈ (v.book.judge dead (.of template) e.1 e.2).diagnostics) :
    ComesFromLive v template dead e.1 e.2 d := by
  obtain ⟨problem, hproblem, rfl⟩ := List.mem_map.1 h
  cases htype : v.spec.resourceType? e.2.resourceType with
  | none =>
    have hproblems : v.book.resourceProblems dead (.of template) e.1 e.2 = [.unknownType] := by
      simp [Rulebook.resourceProblems, book, htype]
    rw [hproblems, List.mem_singleton] at hproblem
    rw [hproblem]
    exact .type htype
  | some type =>
    have hproblems : v.book.resourceProblems dead (.of template) e.1 e.2 =
        v.book.nestedProblems (.ofResource e.2.resourceType) (Rulebook.live dead e.1 type.properties) e.2.properties
          ++ (Rulebook.live dead e.1 e.2.properties).flatMap fun e =>
            Rulebook.referenceProblems v.spec (.of template) e.2 := by
      simp [Rulebook.resourceProblems, book, htype]
    rw [hproblems] at hproblem
    cases List.mem_append.1 hproblem with
    | inl hproblem =>
      rw [Violations.nestedProblems_eq] at hproblem
      obtain ⟨⟨property, declaration⟩, hmem, hproblem⟩ := List.mem_flatMap.1 hproblem
      obtain ⟨hdeclared, hlive⟩ := List.mem_filter.1 hmem
      refine .declared htype hdeclared (by simpa using hlive) ?_
      rw [Violations.nestedProblems_eq]
      simpa using hproblem
    | inr hproblem =>
      obtain ⟨⟨property, value⟩, hmem, hproblem⟩ := List.mem_flatMap.1 hproblem
      obtain ⟨hwritten, hlive⟩ := List.mem_filter.1 hmem
      exact .written hwritten (by simpa using hlive) hproblem

theorem comesFromLive_of_mem_entry (v : Validator) (template : Template) (dead : DeadEntries) {e : String × Resource}
    (he : e ∈ template.resources) {d : Diagnostic} (h : d ∈ (v.entry template dead e).diagnostics) :
    ∃ resource, (e.1, resource) ∈ template.resources ∧ ComesFromLive v template dead e.1 resource d := by
  have hjudged : (v.book.judge dead (.of template) e.1 e.2).resource = e.1 := rfl
  rw [entry, applyRules, hjudged] at h
  cases hget : template.resources.get? e.1 with
  | none =>
    rw [hget] at h
    exact ⟨e.2, he, v.comesFromLive_of_mem_judge template dead e h⟩
  | some resource =>
    rw [hget] at h
    cases List.mem_append.1 h with
    | inl h => exact ⟨e.2, he, v.comesFromLive_of_mem_judge template dead e h⟩
    | inr h =>
      have hmem : (e.1, resource) ∈ template.resources := by
        obtain ⟨⟨name, found⟩, hfind, rfl⟩ := Option.map_eq_some_iff.1 hget
        have hname : name = e.1 := by simpa using List.find?_some hfind
        exact hname ▸ List.mem_of_find?_eq_some hfind
      refine ⟨resource, hmem, ?_⟩
      rw [Registry.diagnostics] at h
      split at h
      · rename_i hrule
        exact .rule hrule h
      · contradiction

/-- The values of dead properties, whether they are there at all, and what dead resources hold make no difference
to a report. What it says about a resource is said about something live. -/
theorem validateParsed_eq_of_agreesWith (v : Validator) {parsed other : Parsed} (h : parsed.AgreesWith other) :
    v.validateParsed other = v.validateParsed parsed ∧
      ∀ judged ∈ (v.validateParsed parsed).resources,
        parsed.reconciliation.dead.isDeadResource judged.resource = false ∧
          ∀ d ∈ judged.diagnostics, ∃ resource, (judged.resource, resource) ∈ parsed.template.resources ∧
            ComesFromLive v parsed.template parsed.reconciliation.dead judged.resource resource d := by
  constructor
  · have hentries : (v.validateParsed other).resources = (v.validateParsed parsed).resources := by
      rw [resources_validateParsed, resources_validateParsed]
      have hresources := h.resources
      generalize parsed.template.resources = resources at hresources
      generalize other.template.resources = others at hresources
      induction hresources with
      | nil => rfl
      | @cons e f resources others hpair _ ih =>
        rw [List.filter_cons, List.filter_cons, h.deadResources, ← hpair.1]
        cases hlive : parsed.reconciliation.dead.isDeadResource e.1 with
        | true => exact ih
        | false => exact congrArg₂ List.cons (v.entry_eq h hpair.1 hpair.2 hlive) ih
    have hnotices : (v.validateParsed other).notices = (v.validateParsed parsed).notices :=
      congrArg Option.toList h.notice
    cases hreport : v.validateParsed other
    cases hreport' : v.validateParsed parsed
    simp_all
  · intro judged hjudged
    rw [resources_validateParsed] at hjudged
    obtain ⟨e, he, rfl⟩ := List.mem_map.1 hjudged
    obtain ⟨hmem, hlive⟩ := List.mem_filter.1 he
    rw [resource_entry]
    exact ⟨by simpa using hlive, fun d hd => v.comesFromLive_of_mem_entry _ _ hmem hd⟩

def networkWith (block : Entries Tree) (table : Entries Tree) : Parsed where
  format := .json
  template := { Template.blank with
    resources := [("Net", { Resource.blank with resourceType := "AWS::EC2::VPC", properties := block }),
      ("Old", { Resource.blank with resourceType := "Table", properties := table })] }
  tree := .null
  reconciliation := ⟨0, ⟨["Old"], [("Net", "CidrBlock")]⟩⟩

/-- A block that is required is neither missed nor judged where it is dead. -/
theorem validateParsed_networkWith :
    (networkWith [] []).AgreesWith (networkWith [("CidrBlock", .object [("Ref", .string "Nowhere")])] [("Rows", .null)]) ∧
      let v := Validator.make ((Specification.empty "1").withResourceType "AWS::EC2::VPC"
        { ResourceType.blank with properties := [("CidrBlock", .ofPrimitive "String" true)] }) .standard
      v.validateParsed (networkWith [("CidrBlock", .object [("Ref", .string "Nowhere")])] [("Rows", .null)]) =
        v.validateParsed (networkWith [] []) := by
  have hagrees : (networkWith [] []).AgreesWith
      (networkWith [("CidrBlock", .object [("Ref", .string "Nowhere")])] [("Rows", .null)]) := by
    refine ⟨fun _ => rfl, fun _ _ => rfl, rfl, ?_, fun _ => Iff.rfl, fun _ => Iff.rfl⟩
    refine .cons ⟨rfl, rfl, fun _ => rfl, fun _ => rfl⟩ (.cons ⟨rfl, rfl, fun h => ?_, fun h => ?_⟩ .nil)
    · exact absurd h (by decide)
    · exact absurd h (by decide)
  exact ⟨hagrees, (validateParsed_eq_of_agreesWith _ hagrees).1⟩

end Validator

end CloudTemplate
