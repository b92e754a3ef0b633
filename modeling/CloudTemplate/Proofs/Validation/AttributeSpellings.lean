import CloudTemplate.Proofs.Shorthand.AttributeTexts
import CloudTemplate.Proofs.Template.Strays
import CloudTemplate.Proofs.Validation.AddressBlocks
import CloudTemplate.Proofs.Validation.Deferral
/-! The two spellings of a call for an attribute: a resource and the name of its attribute with a point between them, or a
list of both. Judging a template does not tell them apart, wherever they stand, and shorthand is written out as the list
that stands for the text. -/
namespace CloudTemplate

namespace Tree

inductive Respells : Tree → Tree → Prop
  | point {resource name : String} (hpoint : '.' ∉ resource.toList) :
      Respells (attributeCall (.string (resource ++ "." ++ name))) (attributeCall (.array [.string resource, .string name]))
  | item {before after : List Tree} {value other : Tree} (h : Respells value other) :
      Respells (.array (before ++ value :: after)) (.array (before ++ other :: after))
  | entry {before after : Entries Tree} {key : String} {value other : Tree} (h : Respells value other) :
      Respells (.object (before ++ (key, value) :: after)) (.object (before ++ (key, other) :: after))

def Respelled : Tree → Tree → Prop := Relation.ReflTransGen Respells

/-- What one call does not change any number of them do not change. -/
theorem Respelled.apply_eq {α : Type} {f : Tree → α}
    (hf : ∀ {value other : Tree}, value.Respells other → f other = f value)
    {value other : Tree} (h : value.Respelled other) : f other = f value := by
  induction h with
  | refl => rfl
  | tail _ hstep ih => exact (hf hstep).trans ih

end Tree

structure Resource.Respelled (resource other : Resource) : Prop where
  attrs : { other with properties := resource.properties } = resource
  properties : List.Forall₂ (fun e f => e.1 = f.1 ∧ e.2.Respelled f.2) resource.properties other.properties

theorem Resource.Respelled.resourceType {resource other : Resource} (h : resource.Respelled other) :
    other.resourceType = resource.resourceType := by
  have htype := congrArg Resource.resourceType h.attrs
  exact htype

structure Template.Respelled (template other : Template) : Prop where
  sections : { other with resources := template.resources } = template
  resources : List.Forall₂ (fun e f => e.1 = f.1 ∧ e.2.Respelled f.2) template.resources other.resources

structure Parsed.Respelled (parsed other : Parsed) : Prop where
  template : parsed.template.Respelled other.template
  reconciliation : other.reconciliation = parsed.reconciliation

def Resource.IsNetwork (resource : Resource) : Prop :=
  resource.resourceType = "AWS::EC2::VPC" ∨ resource.resourceType = "AWS::EC2::Subnet"

/-- Judging cuts a text where writing shorthand out cuts it. -/
theorem Rulebook.attributeTarget_string (s : String) :
    attributeTarget (.string s) =
      match Shorthand.splitPoint s.toList with
      | some (resource, name) => (some (String.ofList resource), some (String.ofList name))
      | none => (some s, none) := by
  rw [attributeTarget, Shorthand.splitPoint]
  split <;> rfl

theorem Rulebook.attributeTarget_point {resource : String} (h : '.' ∉ resource.toList) (name : String) :
    attributeTarget (.string (resource ++ "." ++ name)) = (some resource, some name) := by
  have htext : (resource ++ "." ++ name).toList = resource.toList ++ '.' :: name.toList := by simp
  rw [attributeTarget_string, htext, Shorthand.splitPoint_append h]
  simp

namespace Tree.Respells

variable {value other : Tree}

theorem defers (h : value.Respells other) : value.Defers other ∧ other.Defers value := by
  induction h with
  | point => exact ⟨.call rfl, .call rfl⟩
  | item _ ih => exact ⟨.item ih.1, .item ih.2⟩
  | entry _ ih => exact ⟨.entry ih.1, .entry ih.2⟩

theorem isCall_eq (h : value.Respells other) : Intrinsic.isCall other = Intrinsic.isCall value := by
  cases h with
  | point => rfl
  | item => rfl
  | entry => exact Intrinsic.isCall_append_cons _ _ _ _ _

/-- Neither of them is a text. -/
theorem asString?_eq (h : value.Respells other) : other.asString? = value.asString? := by
  cases h <;> rfl

theorem isNull_eq (h : value.Respells other) : other.isNull = value.isNull := by
  cases h <;> rfl

theorem strays_eq (h : value.Respells other) : other.strays = value.strays := by
  induction h with
  | point => rfl
  | item h ih =>
    simp only [strays, holdsValue, List.any_append, List.any_cons, List.countP_append, List.countP_cons, straysOfItems_eq_sum,
      List.map_append, List.map_cons, List.sum_append, List.sum_cons, h.isNull_eq, ih]
  | entry h ih =>
    simp only [strays, straysOfEntries_eq_sum, List.map_append, List.map_cons, List.sum_append, List.sum_cons, ih]

theorem prune (h : value.Respells other) : value.prune.Respells other.prune := by
  induction h with
  | point hpoint => exact .point hpoint
  | @item before after value other h ih =>
    have hvalue : holdsValue (before ++ other :: after) = holdsValue (before ++ value :: after) := by
      simp only [holdsValue, List.any_append, List.any_cons, h.isNull_eq]
    have hkept : value.isNull = false := by cases h <;> rfl
    rw [Tree.prune, Tree.prune, hvalue, pruneItems_eq_map, pruneItems_eq_map]
    simp only [List.filter_append, List.filter_cons, h.isNull_eq, hkept, Bool.and_false, Bool.not_false, if_true,
      List.map_append, List.map_cons]
    exact .item ih
  | entry h ih =>
    rw [Tree.prune, Tree.prune, pruneEntries_eq_map, pruneEntries_eq_map, List.map_append, List.map_append, List.map_cons,
      List.map_cons]
    exact .entry ih

end Tree.Respells

theorem Tree.Respelled.prune {value other : Tree} (h : value.Respelled other) : value.prune.Respelled other.prune := by
  induction h with
  | refl => exact .refl
  | tail _ hstep ih => exact .tail ih hstep.prune

namespace Rulebook

variable {value other : Tree}

theorem valueProblems_of_respells (book : Rulebook) (resourceType name : String) (shape : PropertyShape)
    (h : value.Respells other) :
    book.valueProblems resourceType name shape other = book.valueProblems resourceType name shape value :=
  (book.valueProblems_sublist h.defers.1 resourceType name shape).antisymm
    (book.valueProblems_sublist h.defers.2 resourceType name shape)

theorem mappingName_array (items : List Tree) : mappingName (.array items) = (items.map Tree.asString?).head?.join := by
  cases items with
  | nil => rfl
  | cons item items => cases item <;> rfl

theorem attributeTarget_array (items : List Tree) :
    attributeTarget (.array items) = ((items.map Tree.asString?)[0]?.join, (items.map Tree.asString?)[1]?.join) := by
  match items with
  | [] | [_] | _ :: _ :: _ => rfl

theorem arityFault?_array_eq (f : Intrinsic) {items others : List Tree} (h : others.length = items.length) :
    f.arityFault? (.array others) = f.arityFault? (.array items) := by
  unfold Intrinsic.arityFault?
  cases f.arity <;> simp only [h]

/-- The argument of a call is up to its kind, its length, and the texts that stand in it. -/
theorem problemsOfCall_of_respells (spec : Specification) (references : References) (f : Intrinsic)
    (h : value.Respells other) :
    problemsOfCall spec references (f, other) = problemsOfCall spec references (f, value) := by
  cases h with
  | point => cases f <;> rfl
  | @item before after value other h =>
    have htexts : (before ++ other :: after).map Tree.asString? = (before ++ value :: after).map Tree.asString? := by
      rw [List.map_append, List.map_append, List.map_cons, List.map_cons, h.asString?_eq]
    have hlength : (before ++ other :: after).length = (before ++ value :: after).length := by simp
    have harguments : argumentProblems f (.array (before ++ other :: after)) =
        argumentProblems f (.array (before ++ value :: after)) := by
      rw [argumentProblems, argumentProblems, arityFault?_array_eq f hlength]
    have hnames : callProblems spec references f (.array (before ++ other :: after)) =
        callProblems spec references f (.array (before ++ value :: after)) := by
      simp only [callProblems, attributeProblems, mappingName_array, attributeTarget_array, htexts]
    rw [problemsOfCall, problemsOfCall, harguments, hnames]
  | entry => cases f <;> rfl

theorem referenceProblemsOfItems_eq (spec : Specification) (references : References) (items : List Tree) :
    referenceProblemsOfItems spec references items = items.flatMap (referenceProblems spec references) := by
  induction items with
  | nil => rfl
  | cons item items ih => rw [referenceProblemsOfItems, ih, List.flatMap_cons]

theorem referenceProblemsOfEntries_eq (spec : Specification) (references : References) (entries : Entries Tree) :
    referenceProblemsOfEntries spec references entries =
      entries.flatMap fun e => referenceProblems spec references e.2 := by
  induction entries with
  | nil => rfl
  | cons e entries ih => rw [referenceProblemsOfEntries, ih, List.flatMap_cons]

theorem detect?_of_length {entries : Entries Tree} (h : entries.length ≠ 1) : Intrinsic.detect? (.object entries) = none := by
  match entries with
  | [] | _ :: _ :: _ => rfl
  | [_] => exact absurd rfl h

theorem ownProblems_of_respells (spec : Specification) (references : References) (before after : Entries Tree)
    (key : String) (h : value.Respells other) :
    ownProblems spec references (.object (before ++ (key, other) :: after)) =
      ownProblems spec references (.object (before ++ (key, value) :: after)) := by
  rw [ownProblems_eq, ownProblems_eq]
  by_cases hsingle : before = [] ∧ after = []
  · obtain ⟨rfl, rfl⟩ := hsingle
    simp only [List.nil_append, Intrinsic.detect?]
    cases Intrinsic.ofLongName? key with
    | none => rfl
    | some f =>
      cases f with
      | condition => rfl
      | _ => simp only [Option.toList_some, List.flatMap_singleton, problemsOfCall_of_respells _ _ _ h]
  · have hlength (tree : Tree) : (before ++ (key, tree) :: after).length ≠ 1 := by
      rw [List.length_append, List.length_cons]
      intro hlength
      exact hsingle ⟨List.length_eq_zero_iff.1 (by omega), List.length_eq_zero_iff.1 (by omega)⟩
    rw [detect?_of_length (hlength other), detect?_of_length (hlength value)]

theorem referenceProblems_of_respells (spec : Specification) (references : References) (h : value.Respells other) :
    referenceProblems spec references other = referenceProblems spec references value := by
  induction h with
  | @point resource name hpoint =>
    have harguments : problemsOfCall spec references (.getAtt, .array [.string resource, .string name]) =
        problemsOfCall spec references (.getAtt, .string (resource ++ "." ++ name)) := by
      have hcontains : (resource ++ "." ++ name).toList.contains '.' = true := by simp
      have htarget : attributeTarget (.array [.string resource, .string name]) =
          attributeTarget (.string (resource ++ "." ++ name)) := (attributeTarget_point hpoint name).symm
      simp only [problemsOfCall, argumentProblems, callProblems, attributeProblems, htarget]
      simp [Intrinsic.arityFault?, Intrinsic.arity]
    have hcalls (argument : Tree) (hargument : argument.calls = []) :
        referenceProblems spec references (attributeCall argument) = problemsOfCall spec references (.getAtt, argument) := by
      rw [referenceProblems_eq_flatMap, attributeCall, Tree.calls, callsOfEntries, hargument]
      exact List.append_nil _
    rw [hcalls _ rfl, hcalls _ rfl, harguments]
  | item _ ih =>
    simp only [referenceProblems, referenceProblemsOfItems_eq, List.flatMap_append, List.flatMap_cons, ih]
  | entry h ih =>
    simp only [referenceProblems, referenceProblemsOfEntries_eq, ownProblems_of_respells spec references _ _ _ h,
      List.flatMap_append, List.flatMap_cons, ih]

theorem forall₂_filter_key {α β : Type} {r : α → β → Prop} {entries : Entries α} {others : Entries β}
    (h : List.Forall₂ (fun e f => e.1 = f.1 ∧ r e.2 f.2) entries others) (keep : String → Bool) :
    List.Forall₂ (fun e f => e.1 = f.1 ∧ r e.2 f.2) (entries.filter fun e => keep e.1)
      (others.filter fun e => keep e.1) :=
  List.rel_filter (fun e f hef => by simp only [hef.1]) h

theorem map_eq_of_forall₂ {α β γ : Type} {r : α → β → Prop} {f : α → γ} {g : β → γ} {xs : List α} {ys : List β}
    (h : List.Forall₂ r xs ys) (hr : ∀ x y, r x y → g y = f x) : ys.map g = xs.map f := by
  induction h with
  | nil => rfl
  | cons hxy _ ih => rw [List.map_cons, List.map_cons, hr _ _ hxy, ih]

section

variable (book : Rulebook) (dead : DeadEntries) {resource changed : Resource} (h : resource.Respelled changed)
include h

theorem propertyProblems_of_respelled (name : String) :
    book.propertyProblems dead name changed = book.propertyProblems dead name resource := by
  rw [propertyProblems, propertyProblems, h.resourceType]
  cases book.spec.resourceType? resource.resourceType with
  | none => rfl
  | some type =>
    dsimp only
    rw [Violations.nestedProblems_eq, Violations.nestedProblems_eq]
    refine List.flatMap_congr fun e _ => ?_
    have hget := @Entries.get?_of_forall₂ _ _ (fun _ => Tree.Respelled) _ _ h.properties e.1
    generalize resource.properties.get? e.1 = found at hget
    generalize changed.properties.get? e.1 = other at hget
    cases hget with
    | none => rfl
    | some hvalue =>
      exact congrArg _ (hvalue.apply_eq (book.valueProblems_of_respells resource.resourceType e.1 e.2.shape))

theorem resourceCallProblems_of_respelled (references : References) (name : String) :
    book.resourceCallProblems dead references name changed = book.resourceCallProblems dead references name resource := by
  rw [resourceCallProblems, resourceCallProblems, h.resourceType]
  cases book.spec.resourceType? resource.resourceType with
  | none => rfl
  | some type =>
    have hlive := forall₂_filter_key h.properties fun property => !dead.isDeadProperty name property
    dsimp only
    rw [List.flatMap_def, List.flatMap_def]
    have hcalls {value other : Tree} (h : value.Respelled other) :=
      h.apply_eq (referenceProblems_of_respells book.spec references)
    exact congrArg _ (map_eq_of_forall₂ hlive fun e f hef => hcalls hef.2)

theorem judge_of_respelled (references : References) (name : String) :
    book.judge dead references name changed = book.judge dead references name resource := by
  rw [judge, judge, resourceProblems_eq_append, resourceProblems_eq_append, propertyProblems_of_respelled book dead h,
    resourceCallProblems_of_respelled book dead h, h.resourceType]

end

theorem references_of_respelled {template other : Template} (h : template.Respelled other) :
    References.of other = .of template := by
  have hparameters := congrArg Template.parameters h.sections
  have hmappings := congrArg Template.mappings h.sections
  have hresources : (other.resources.map fun e => (e.1, e.2.resourceType)) =
      template.resources.map fun e => (e.1, e.2.resourceType) :=
    map_eq_of_forall₂ h.resources fun e f hef => Prod.ext hef.1.symm hef.2.resourceType
  rw [References.of, References.of, hresources, ← hparameters, ← hmappings]

theorem judgeTemplate_of_respelled (book : Rulebook) (dead : DeadEntries) {template other : Template}
    (h : template.Respelled other) : book.judgeTemplate other dead = book.judgeTemplate template dead := by
  have hlive := forall₂_filter_key h.resources fun name => !dead.isDeadResource name
  rw [judgeTemplate, judgeTemplate, references_of_respelled h]
  refine map_eq_of_forall₂ hlive fun e f hef => ?_
  rw [← hef.1, book.judge_of_respelled dead hef.2]

end Rulebook

namespace Cidr

theorem isRefused_iff (value : Tree) :
    IsRefused value ↔ value.isNull = false ∧ Intrinsic.isCall value = false ∧
      ∀ s ∈ value.asString?, ¬IsBlockText s.toList := by
  cases value <;> simp [IsRefused, Tree.isNull, Tree.asString?]

theorem isRefused_of_respelled {value other : Tree} (h : value.Respelled other) : IsRefused other ↔ IsRefused value := by
  rw [isRefused_iff, isRefused_iff, h.apply_eq Tree.Respells.isNull_eq, h.apply_eq Tree.Respells.isCall_eq,
    h.apply_eq Tree.Respells.asString?_eq]

theorem diagnostics_builtin_of_ne {resource : Resource}
    (htype : ¬(resource.resourceType = "AWS::EC2::VPC" ∨ resource.resourceType = "AWS::EC2::Subnet")) (name : String) :
    Registry.builtin.diagnostics name resource = [] := by
  have hbuiltin : Registry.builtin = [("AWS::EC2::VPC", .vpc), ("AWS::EC2::Subnet", .subnet)] := rfl
  obtain ⟨hvpc, hsubnet⟩ := not_or.1 htype
  rw [Registry.diagnostics, hbuiltin, Entries.get?_cons, if_neg (Ne.symm hvpc), Entries.get?_cons, if_neg (Ne.symm hsubnet)]
  rfl

theorem exists_get?_of_respelled {resource changed : Resource} (h : resource.Respelled changed) (name : String) :
    (∀ value, resource.properties.get? name = some value →
      ∃ other, changed.properties.get? name = some other ∧ value.Respelled other) ∧
    ∀ other, changed.properties.get? name = some other →
      ∃ value, resource.properties.get? name = some value ∧ value.Respelled other := by
  have hget := @Entries.get?_of_forall₂ _ _ (fun _ => Tree.Respelled) _ _ h.properties name
  generalize resource.properties.get? name = found at hget
  generalize changed.properties.get? name = spelled at hget
  cases hget with
  | none => simp
  | some hvalue =>
    constructor
    · rintro value ⟨⟩
      exact ⟨_, rfl, hvalue⟩
    · rintro other ⟨⟩
      exact ⟨_, rfl, hvalue⟩

def ruling (dead : DeadEntries) (name : String) (resource : Resource) : List Diagnostic :=
  Registry.builtin.diagnostics name (Validator.liveResource dead name resource)

/-- The rules say the same of two resources, unless they refuse a block and show how it is spelled. -/
theorem ruling_of_respelled (dead : DeadEntries) (name : String) {resource changed : Resource}
    (h : resource.Respelled changed) :
    ruling dead name changed = ruling dead name resource ∨
      ∃ value other, resource.IsNetwork ∧ Refuses dead name resource value ∧ value.Respelled other ∧
        ruling dead name resource = [refusal "CidrBlock" (shown value)] ∧
          ruling dead name changed = [refusal "CidrBlock" (shown other)] := by
  obtain ⟨hfrom, hto⟩ := exists_get?_of_respelled h "CidrBlock"
  by_cases htype : resource.IsNetwork
  · have htype' : changed.IsNetwork := by rwa [Resource.IsNetwork, h.resourceType]
    obtain ⟨hrefused, hnone⟩ := @diagnostics_liveResource dead (name, resource) htype
    obtain ⟨hrefused', hnone'⟩ := @diagnostics_liveResource dead (name, changed) htype'
    by_cases hrefuses : ∃ value, Refuses dead name resource value
    · obtain ⟨value, hvalue⟩ := hrefuses
      obtain ⟨other, hget, hspelled⟩ := hfrom value hvalue.2.1
      have hother : Refuses dead name changed other := ⟨hvalue.1, hget, (isRefused_of_respelled hspelled).2 hvalue.2.2⟩
      exact .inr ⟨value, other, htype, hvalue, hspelled, hrefused value hvalue, hrefused' other hother⟩
    · have hchanged (other : Tree) : ¬Refuses dead name changed other := by
        rintro ⟨hdead, hget, hother⟩
        obtain ⟨value, hvalue, hspelled⟩ := hto other hget
        exact hrefuses ⟨value, hdead, hvalue, (isRefused_of_respelled hspelled).1 hother⟩
      exact .inl ((hnone' hchanged).trans (hnone (not_exists.1 hrefuses)).symm)
  · have htype' : ¬changed.IsNetwork := by rwa [Resource.IsNetwork, h.resourceType]
    left
    rw [ruling, ruling, @diagnostics_builtin_of_ne (Validator.liveResource dead name changed) htype',
      @diagnostics_builtin_of_ne (Validator.liveResource dead name resource) htype]

end Cidr

/-- Two entries of reports: they are the same, or both refuse the block of a network and show how it is spelled. -/
inductive Parsed.SameButShown (parsed : Parsed) : ResourceValidation → ResourceValidation → Prop
  | same (judged : ResourceValidation) : SameButShown parsed judged judged
  | shown {judged : ResourceValidation} {resource : Resource} {value other : Tree}
      (hresource : (judged.resource, resource) ∈ parsed.template.resources) (htype : resource.IsNetwork)
      (hrefuses : Cidr.Refuses parsed.reconciliation.dead judged.resource resource value) (h : value.Respelled other) :
      SameButShown parsed (judged.add [Cidr.refusal "CidrBlock" (Cidr.shown value)])
        (judged.add [Cidr.refusal "CidrBlock" (Cidr.shown other)])

def Parsed.RefusesTexts (parsed : Parsed) : Prop :=
  ∀ e ∈ parsed.template.resources, e.2.IsNetwork →
    ∀ value, Cidr.Refuses parsed.reconciliation.dead e.1 e.2 value → ∃ s, value = .string s

theorem Parsed.SameButShown.eq {parsed : Parsed} {judged other : ResourceValidation} (h : parsed.SameButShown judged other)
    (htexts : parsed.RefusesTexts) : judged = other := by
  cases h with
  | same => rfl
  | @shown judged resource value other hresource htype hrefuses hspelled =>
    obtain ⟨s, rfl⟩ := htexts _ hresource htype value hrefuses
    have htext : other.asString? = some s := hspelled.apply_eq Tree.Respells.asString?_eq
    have hother : other = .string s := by
      cases other with
      | string => exact congrArg _ (Option.some.inj htext)
      | _ => contradiction
    rw [hother]

namespace Validator

variable {v : Validator} {parsed other : Parsed}

theorem sameButShown_entry (hrules : v.rules = .builtin) (h : parsed.Respelled other) {e f : String × Resource}
    (hef : e.1 = f.1 ∧ e.2.Respelled f.2) :
    parsed.SameButShown (v.entry parsed.template parsed.reconciliation.dead e)
      (v.entry other.template other.reconciliation.dead f) := by
  have hresource (judged : ResourceValidation) :
      parsed.SameButShown (v.applyRules parsed.template parsed.reconciliation.dead judged)
        (v.applyRules other.template parsed.reconciliation.dead judged) := by
    have hget := @Entries.get?_of_forall₂ _ _ (fun _ => Resource.Respelled) _ _ h.template.resources judged.resource
    rw [applyRules, applyRules, hrules]
    cases hfound : parsed.template.resources.get? judged.resource with
    | none =>
      rw [hfound] at hget
      generalize other.template.resources.get? judged.resource = changed at hget
      cases hget
      exact .same judged
    | some resource =>
      rw [hfound] at hget
      generalize other.template.resources.get? judged.resource = changed at hget
      cases hget with
      | some hspelled =>
        change parsed.SameButShown (judged.add (Cidr.ruling _ _ _)) (judged.add (Cidr.ruling _ _ _))
        obtain hsame | ⟨value, spelled, htype, hrefuses, hvalue, hbefore, hafter⟩ :=
          Cidr.ruling_of_respelled parsed.reconciliation.dead judged.resource hspelled
        · rw [hsame]
          exact .same _
        · rw [hbefore, hafter]
          exact .shown (Entries.mem_of_get? hfound) htype hrefuses hvalue
  rw [entry, entry, h.reconciliation, Rulebook.references_of_respelled h.template, ← hef.1,
    v.book.judge_of_respelled parsed.reconciliation.dead hef.2]
  exact hresource _

theorem sameButShown_resources (hrules : v.rules = .builtin) (h : parsed.Respelled other) :
    List.Forall₂ parsed.SameButShown (v.validateParsed parsed).resources (v.validateParsed other).resources := by
  have hlive := Rulebook.forall₂_filter_key h.template.resources
    fun name => !parsed.reconciliation.dead.isDeadResource name
  rw [resources_validateParsed, resources_validateParsed, List.forall₂_map_left_iff, List.forall₂_map_right_iff]
  nth_rewrite 2 [h.reconciliation]
  exact hlive.imp fun e f hef => sameButShown_entry hrules h hef

theorem notices_of_respelled (h : parsed.Respelled other) :
    (v.validateParsed other).notices = (v.validateParsed parsed).notices := by
  rw [validateParsed, validateParsed, h.reconciliation]

/-- Where the blocks that are refused are texts, the whole report is the same. -/
theorem validateParsed_of_respelled (hrules : v.rules = .builtin) (h : parsed.Respelled other)
    (htexts : parsed.RefusesTexts) : v.validateParsed other = v.validateParsed parsed := by
  have hequal := (sameButShown_resources hrules h).imp fun _ _ hshown => hshown.eq htexts
  rw [List.forall₂_eq_eq_eq] at hequal
  have hnotices := notices_of_respelled (v := v) h
  cases hreport : v.validateParsed other
  cases hreport' : v.validateParsed parsed
  simp_all

end Validator

/-- The text is judged as the list that it is written out as. -/
theorem Shorthand.Dotted.respells_call (dotted : Shorthand.Dotted) :
    (attributeCall (.string (String.ofList dotted.text))).Respells dotted.call := by
  have htext : String.ofList dotted.text = String.ofList dotted.resource ++ "." ++ String.ofList dotted.name := by
    rw [← String.toList_inj]
    simp [text]
  rw [htext]
  exact .point (by rw [String.toList_ofList]; exact dotted.not_mem_resource)

namespace Validator

/-- However many calls for attributes are spelled as lists, and wherever they stand, templates are judged alike, and so are
their networks, of which a refusal shows the block as it is spelled. Reading a template finds the same in both. For a
resource of letters and digits and a name of these and points the list is what the shorthand is written out as, and judging
cuts every text where that does. -/
theorem report_respelled :
    (∀ (book : Rulebook) (dead : DeadEntries) (template other : Template), template.Respelled other →
      book.judgeTemplate other dead = book.judgeTemplate template dead) ∧
    (∀ (v : Validator) (parsed other : Parsed), v.rules = .builtin → parsed.Respelled other →
      List.Forall₂ parsed.SameButShown (v.validateParsed parsed).resources (v.validateParsed other).resources ∧
      (v.validateParsed other).notices = (v.validateParsed parsed).notices ∧
      (parsed.RefusesTexts → v.validateParsed other = v.validateParsed parsed)) ∧
    (∀ value other : Tree, value.Respelled other →
      other.isNull = value.isNull ∧ other.strays = value.strays ∧ value.prune.Respelled other.prune) ∧
    (∀ dotted : Shorthand.Dotted,
      Shorthand.expandValue (Shorthand.shortForm .getAtt dotted.text) = .ok (.inline dotted.callText) ∧
      Json.readTree (String.ofList dotted.callText) = .ok dotted.call ∧
      (attributeCall (.string (String.ofList dotted.text))).Respells dotted.call) ∧
    ∀ s : String, Rulebook.attributeTarget (.string s) =
      match Shorthand.splitPoint s.toList with
      | some (resource, name) => (some (String.ofList resource), some (String.ofList name))
      | none => (some s, none) := by
  refine ⟨fun book dead template other h => ?_, fun v parsed other hrules h => ⟨?_, ?_, fun htexts => ?_⟩,
    fun value other h => ⟨?_, ?_, ?_⟩, fun dotted => ⟨?_, ?_, ?_⟩, Rulebook.attributeTarget_string⟩
  · exact book.judgeTemplate_of_respelled dead h
  · exact sameButShown_resources hrules h
  · exact notices_of_respelled h
  · exact validateParsed_of_respelled hrules h htexts
  · exact h.apply_eq Tree.Respells.isNull_eq
  · exact h.apply_eq Tree.Respells.strays_eq
  · exact h.prune
  · exact dotted.expandValue_shortForm
  · exact dotted.readTree_callText
  · exact dotted.respells_call

def networkWithBlock (block : Tree) : Parsed where
  format := .json
  template := { Template.blank with
    resources := [("Net", { Resource.blank with resourceType := "AWS::EC2::VPC", properties := [("CidrBlock", block)] })] }
  tree := .null
  reconciliation := .nothing

theorem respelled_networkWithBlock {block other : Tree} (h : block.Respelled other) :
    (networkWithBlock block).Respelled (networkWithBlock other) where
  template := ⟨rfl, .cons ⟨rfl, rfl, .cons ⟨rfl, h⟩ .nil⟩ .nil⟩
  reconciliation := rfl

/-- A block that another resource has is not judged, in either spelling. -/
theorem report_respelled_pool :
    let text := attributeCall (.string "Pool.Block.Range")
    let list := attributeCall (.array [.string "Pool", .string "Block.Range"])
    let v := Validator.make (.empty "1") .standard
    (v.rules = .builtin ∧ (networkWithBlock text).Respelled (networkWithBlock list) ∧
      (networkWithBlock text).RefusesTexts) ∧
      v.validateParsed (networkWithBlock list) = v.validateParsed (networkWithBlock text) := by
  intro text list v
  have hrespells : text.Respells list := @Tree.Respells.point "Pool" "Block.Range" (by decide)
  have hrespelled := respelled_networkWithBlock (.single hrespells)
  have htexts : (networkWithBlock text).RefusesTexts := by
    intro e he _ value hrefuses
    obtain rfl := List.mem_singleton.1 he
    obtain ⟨-, hget, -, hcall, -⟩ := hrefuses
    cases hget
    contradiction
  exact ⟨⟨rfl, hrespelled, htexts⟩, (report_respelled.2.1 v _ _ rfl hrespelled).2.2 htexts⟩

/-- A list is no block of addresses, and what is in it is shown as it is spelled. -/
theorem validateParsed_networkWithBlock_ne :
    let text := Tree.array [attributeCall (.string "R.A")]
    let list := Tree.array [attributeCall (.array [.string "R", .string "A"])]
    let v := Validator.make (.empty "1") .standard
    (networkWithBlock text).Respelled (networkWithBlock list) ∧
      v.validateParsed (networkWithBlock list) ≠ v.validateParsed (networkWithBlock text) := by
  intro text list v
  have hrespells : text.Respells list := @Tree.Respells.item [] [] _ _ (@Tree.Respells.point "R" "A" (by decide))
  exact ⟨respelled_networkWithBlock (.single hrespells), by decide⟩

end Validator

end CloudTemplate
