import CloudTemplate.Proofs.Template.Acceptance
import CloudTemplate.Proofs.Validation.DeadData
/-! Reports as mirrors of templates. A report has one entry for each live resource, in the order of the template: what the
specification has to say about the resource, and then what the rule adds that was registered last for its type. -/
namespace CloudTemplate

def Rule.IsLatest (rules : List Rule) (resourceType : String) (rule : Rule) : Prop :=
  ∃ before after, rules = before ++ rule :: after ∧ rule.resourceType = resourceType ∧
    ∀ other ∈ after, other.resourceType ≠ resourceType

def Settings.firstRules (settings : Settings) : List Rule := if settings.builtinRules then [.vpc, .subnet] else []

structure ResourceValidation.Mirrors (book : Rulebook) (rules : List Rule) (template : Template) (dead : DeadEntries)
    (e : String × Resource) (judged : ResourceValidation) : Prop where
  resource : judged.resource = e.1
  resourceType : judged.resourceType = e.2.resourceType
  ruled : ∀ rule, Rule.IsLatest rules e.2.resourceType rule → judged.diagnostics =
    (book.judge dead (.of template) e.1 e.2).diagnostics ++
      rule.check e.1 { e.2 with properties := e.2.properties.filter fun property => !dead.isDeadProperty e.1 property.1 }
  unruled : (∀ rule ∈ rules, rule.resourceType ≠ e.2.resourceType) →
    judged.diagnostics = (book.judge dead (.of template) e.1 e.2).diagnostics
  unknown : book.spec.resourceType? e.2.resourceType = none →
    (book.judge dead (.of template) e.1 e.2).diagnostics = [⟨.error, "Type needs to be specified"⟩]

theorem Rule.isLatest_iff {rules : List Rule} {resourceType : String} {rule : Rule} :
    Rule.IsLatest rules resourceType rule ↔
      rules.reverse.find? (fun other => other.resourceType == resourceType) = some rule := by
  rw [List.find?_eq_some_iff_append]
  constructor
  · rintro ⟨before, after, rfl, htype, hafter⟩
    refine ⟨beq_iff_eq.2 htype, after.reverse, before.reverse, by simp, fun other hother => ?_⟩
    simpa using hafter other (List.mem_reverse.1 hother)
  · rintro ⟨htype, after, before, hrules, hafter⟩
    refine ⟨before.reverse, after.reverse, ?_, beq_iff_eq.1 htype, fun other hother => ?_⟩
    · rw [← List.reverse_reverse rules, hrules]
      simp
    · simpa using hafter other (List.mem_reverse.1 hother)

namespace Registry

theorem get?_foldl_register (registry : Registry) (rules : List Rule) (resourceType : String) :
    (rules.foldl register registry).get? resourceType =
      (rules.reverse.find? fun rule => rule.resourceType == resourceType).or (registry.get? resourceType) := by
  induction rules generalizing registry with
  | nil => rfl
  | cons rule rules ih =>
    rw [List.foldl_cons, ih, register, Entries.get?_insert, List.reverse_cons, List.find?_append, Option.or_assoc,
      List.find?_singleton]
    by_cases h : rule.resourceType = resourceType <;> simp [h]

end Registry

namespace Validator

theorem foldl_register (v : Validator) (rules : List Rule) :
    rules.foldl register v = { v with rules := rules.foldl Registry.register v.rules } := by
  induction rules generalizing v with
  | nil => rfl
  | cons rule rules ih =>
    rw [List.foldl_cons, ih]
    rfl

theorem rules_make (spec : Specification) (settings : Settings) :
    (make spec settings).rules = settings.firstRules.foldl Registry.register .empty := by
  rw [make, Settings.firstRules]
  cases settings.builtinRules <;> rfl

/-- The last rule for a type is the one that its resources are given to. -/
theorem get?_rules (spec : Specification) (settings : Settings) (rules : List Rule) (resourceType : String) :
    (rules.foldl register (make spec settings)).rules.get? resourceType =
      (settings.firstRules ++ rules).reverse.find? fun rule => rule.resourceType == resourceType := by
  rw [foldl_register, rules_make, ← List.foldl_append, Registry.get?_foldl_register]
  exact Option.or_none

theorem entry_eq_add (v : Validator) {template : Template} (hnames : template.resources.keys.Nodup) (dead : DeadEntries)
    {e : String × Resource} (he : e ∈ template.resources) :
    v.entry template dead e = (v.book.judge dead (.of template) e.1 e.2).add
      (v.rules.diagnostics e.1 (liveResource dead e.1 e.2)) := by
  have hget : template.resources.get? (v.book.judge dead (.of template) e.1 e.2).resource = some e.2 :=
    Entries.get?_of_mem hnames he
  rw [entry, applyRules, hget]
  rfl

theorem mirrors_entry {v : Validator} {rules : List Rule} (hrules : ∀ resourceType, v.rules.get? resourceType =
      rules.reverse.find? fun rule => rule.resourceType == resourceType) {template : Template}
    (hnames : template.resources.keys.Nodup) (dead : DeadEntries) {e : String × Resource} (he : e ∈ template.resources) :
    (v.entry template dead e).Mirrors v.book rules template dead e := by
  rw [v.entry_eq_add hnames dead he]
  have htype : (liveResource dead e.1 e.2).resourceType = e.2.resourceType := rfl
  refine ⟨rfl, rfl, fun rule hrule => ?_, fun hnone => ?_, fun hunknown => ?_⟩
  · rw [ResourceValidation.add, Registry.diagnostics, htype, hrules, Rule.isLatest_iff.1 hrule]
    rfl
  · have hget : v.rules.get? e.2.resourceType = none := by
      rw [hrules, List.find?_eq_none]
      simpa using hnone
    rw [ResourceValidation.add, Registry.diagnostics, htype, hget]
    exact List.append_nil _
  · have htype : v.book.spec.resourceType? e.2.resourceType = none := hunknown
    rw [Rulebook.judge, Rulebook.resourceProblems, htype]
    rfl

end Validator

theorem Report.isValid_iff {report : Report} :
    report.isValid = true ↔ ∀ judged ∈ report.resources, ∀ d ∈ judged.diagnostics, d.severity ≠ .error := by
  simp [Report.isValid, ResourceValidation.isValid, ResourceValidation.errors, ResourceValidation.messages]

theorem Report.resources_foldl_addNotice (report : Report) (notices : List String) :
    (notices.foldl Report.addNotice report).resources = report.resources := by
  induction notices generalizing report with
  | nil => rfl
  | cons notice notices ih => exact ih (report.addNotice notice)

namespace Validator

/-- A rule that looks at what was said about a resource before adds to it, on one template, what a rule adds that does
not: the name of the resource tells what was said. -/
theorem exists_rule_of_reading (v : Validator) (parsed : Parsed) (hnames : parsed.template.resources.keys.Nodup)
    (resourceType : String) (check : String → Resource → List Diagnostic → List Diagnostic) :
    ∃ rule : Rule, rule.resourceType = resourceType ∧ ∀ e ∈ parsed.template.resources, ∀ resource,
      rule.check e.1 resource = check e.1 resource
        (v.book.judge parsed.reconciliation.dead (.of parsed.template) e.1 e.2).diagnostics := by
  let said (name : String) : List Diagnostic :=
    (parsed.template.resources.get? name).elim [] fun resource =>
      (v.book.judge parsed.reconciliation.dead (.of parsed.template) name resource).diagnostics
  refine ⟨⟨resourceType, fun name resource => check name resource (said name)⟩, rfl, fun e he resource => ?_⟩
  have hsaid : said e.1 = (v.book.judge parsed.reconciliation.dead (.of parsed.template) e.1 e.2).diagnostics := by
    simp only [said, Entries.get?_of_mem hnames he, Option.elim_some]
  exact congrArg (check e.1 resource) hsaid

theorem forall₂_mirrors (spec : Specification) (settings : Settings) (rules : List Rule) {parsed : Parsed}
    (hnames : parsed.template.resources.keys.Nodup) :
    List.Forall₂ (ResourceValidation.Mirrors ⟨spec, settings.disagreements⟩ (settings.firstRules ++ rules)
        parsed.template parsed.reconciliation.dead)
      (parsed.template.resources.filter fun e => !parsed.reconciliation.dead.isDeadResource e.1)
      ((rules.foldl register (make spec settings)).validateParsed parsed).resources := by
  have hbook : (rules.foldl register (make spec settings)).book = ⟨spec, settings.disagreements⟩ := by
    rw [foldl_register]
    rfl
  rw [resources_validateParsed, ← hbook]
  refine List.forall₂_map_right_iff.2 (List.forall₂_same.2 fun e he => ?_)
  exact mirrors_entry (get?_rules spec settings rules) hnames _ (List.mem_of_mem_filter he)

/-- A report has exactly one entry for each live resource, in order, and each says what there is to say about its
resource. It gives the notice that there is of the nulls taken out, which makes no difference to its verdict. -/
theorem report_mirrors (spec : Specification) (settings : Settings) (rules : List Rule) (parsed : Parsed)
    (hnames : parsed.template.resources.keys.Nodup) :
    let report := (rules.foldl register (make spec settings)).validateParsed parsed
    let dead := parsed.reconciliation.dead
    List.Forall₂ (ResourceValidation.Mirrors ⟨spec, settings.disagreements⟩ (settings.firstRules ++ rules) parsed.template dead)
      (parsed.template.resources.filter fun e => !dead.isDeadResource e.1) report.resources ∧
    report.notices = parsed.reconciliation.notice.toList ∧
    (report.isValid = true ↔ ∀ judged ∈ report.resources, ∀ d ∈ judged.diagnostics, d.severity ≠ .error) ∧
    ∀ notices : List String, (notices.foldl Report.addNotice report).isValid = report.isValid := by
  intro report dead
  refine ⟨forall₂_mirrors spec settings rules hnames, rfl, Report.isValid_iff, fun notices => ?_⟩
  rw [Bool.eq_iff_iff, Report.isValid_iff, Report.isValid_iff, Report.resources_foldl_addNotice]

/-- The report on a source mirrors the template in it, whose resources have a name each. -/
theorem exists_mirrors_of_validate {spec : Specification} {settings : Settings} {rules : List Rule}
    {source : List UInt8} {format : Option Format} {report : Report}
    (h : (rules.foldl register (make spec settings)).validate source format = .ok report) :
    ∃ parsed : Parsed, parsed.template.resources.keys.Nodup ∧
      List.Forall₂ (ResourceValidation.Mirrors ⟨spec, settings.disagreements⟩ (settings.firstRules ++ rules)
          parsed.template parsed.reconciliation.dead)
        (parsed.template.resources.filter fun e => !parsed.reconciliation.dead.isDeadResource e.1)
        report.resources := by
  rw [validate] at h
  split at h
  · rename_i parsed hparsed
    cases h
    have hnames := Parsed.nodup_keys_of_read hparsed
    exact ⟨parsed, hnames, forall₂_mirrors spec settings rules hnames⟩
  · cases h

def naming (resourceType word : String) : Rule :=
  ⟨resourceType, fun _ resource => (word :: resource.properties.keys).map fun text => ⟨.warning, text⟩⟩

def depotTable : Resource :=
  { Resource.blank with resourceType := "Table", properties := [("Rows", .null), ("Name", .string "d")] }

def depot : Parsed where
  format := .json
  template := { Template.blank with
    resources := [("Old", { Resource.blank with resourceType := "Table" }),
      ("Data", depotTable),
      ("Odd", { Resource.blank with resourceType := "Shelf" })] }
  tree := .null
  reconciliation := ⟨1, ⟨["Old"], [("Data", "Rows")]⟩⟩

/-- Of two rules for tables the second one is run, and a shelf gets its rule although its type is unknown. -/
theorem report_mirrors_depot :
    let spec := (Specification.empty "1").withResourceType "Table" .blank
    let rules := [naming "Table" "first", naming "Shelf" "shelf", naming "Table" "second"]
    let report := (rules.foldl register (make spec .standard)).validateParsed depot
    depot.template.resources.keys.Nodup ∧
      report.resources = [⟨"Data", "Table", [⟨.warning, "second"⟩, ⟨.warning, "Name"⟩]⟩,
        ⟨"Odd", "Shelf", [⟨.error, "Type needs to be specified"⟩, ⟨.warning, "shelf"⟩]⟩] ∧
      List.Forall₂ (ResourceValidation.Mirrors ⟨spec, []⟩ ([.vpc, .subnet] ++ rules) depot.template
        depot.reconciliation.dead) (depot.template.resources.drop 1) report.resources := by
  intro spec rules report
  have hnames : depot.template.resources.keys.Nodup := by decide
  have hproperties : Rulebook.nestedProblems ⟨spec, []⟩ (.ofResource "Table") [] depotTable.properties = [] := by
    rw [Rulebook.nestedProblems]
    rfl
  have hdata : Rulebook.judge ⟨spec, []⟩ depot.reconciliation.dead (.of depot.template) "Data" depotTable =
      ⟨"Data", "Table", []⟩ :=
    congrArg (fun problems => ResourceValidation.mk "Data" "Table" ((problems ++ []).map Problem.diagnostic)) hproperties
  refine ⟨hnames, ?_, (report_mirrors spec .standard rules depot hnames).1⟩
  rw [resources_validateParsed]
  exact congrArg₂ (fun data odd => [data, odd]) (congrArg (applyRules _ depot.template depot.reconciliation.dead) hdata) rfl

end Validator

end CloudTemplate
