import CloudTemplate.Proofs.Template.WellFormed
/-! Templates that are written and read again. Writing and reading meet in what a tree says: a tree that was written says
what its template holds, and what it says makes up one template only. -/
namespace CloudTemplate

open CloudTemplate.Tree

structure Resource.IsSettled (resource : Resource) : Prop where
  dependsOn : resource.dependsOn ≠ some .null
  condition : resource.condition ≠ some .null
  metadata : resource.metadata ≠ some .null
  creationPolicy : resource.creationPolicy ≠ some .null
  updatePolicy : resource.updatePolicy ≠ some .null

structure Template.IsSettled (template : Template) : Prop where
  formatVersion : template.formatVersion ≠ some .null
  description : template.description ≠ some .null
  metadata : template.metadata ≠ some .null
  transform : template.transform ≠ some .null
  resources : ∀ e ∈ template.resources, e.2.IsSettled

theorem Tree.present_ne_null (value : Tree) : value.present ≠ some .null := by
  cases value <;> simp [present]

theorem Tree.present_getD {value : Option Tree} (h : value ≠ some .null) : (value.getD .null).present = value := by
  cases value with
  | none => rfl
  | some value =>
    cases value with
    | null => exact absurd rfl h
    | _ => rfl

theorem Tree.eq_of_present_eq_some {value shown : Tree} (h : value.present = some shown) : shown = value := by
  cases value <;> cases h <;> rfl

theorem Tree.HasDistinctKeys.of_present {tree : Tree} (h : tree.HasDistinctKeys) {key : String} {held : Option Tree}
    (hheld : held = (tree.valueAt key).present) (value : Tree) (hvalue : held = some value) : value.HasDistinctKeys :=
  eq_of_present_eq_some (hheld ▸ hvalue) ▸ h.valueAt key

theorem ite_present_ne_null {p : Prop} [Decidable p] {value : Tree} {held : Option Tree} (h : held ≠ some .null) :
    (if p then value.present else held) ≠ some .null := by
  split
  · exact present_ne_null value
  · exact h

namespace Template

theorem isSettled_putAttribute {resource : Resource} (h : resource.IsSettled) (e : String × Tree) :
    (putAttribute resource e).IsSettled where
  dependsOn := ite_present_ne_null h.dependsOn
  condition := ite_present_ne_null h.condition
  metadata := ite_present_ne_null h.metadata
  creationPolicy := ite_present_ne_null h.creationPolicy
  updatePolicy := ite_present_ne_null h.updatePolicy

theorem isSettled_blank : Resource.blank.IsSettled := ⟨nofun, nofun, nofun, nofun, nofun⟩

theorem isSettled_of_readBody {name : String} {body : Tree} {resource : Resource} (h : readBody name body = .ok resource) :
    resource.IsSettled := by
  cases body with
  | null =>
    cases h
    exact isSettled_blank
  | object attrs =>
    obtain ⟨-, -, hread⟩ := readBody_object_eq_ok_iff.1 h
    obtain ⟨-, rfl⟩ := (foldlM_eq_ok_iff readAttribute_eq_ok_iff _ _ _).1 hread
    exact List.foldlRecOn _ _ isSettled_blank fun resource hresource e _ => isSettled_putAttribute hresource e
  | _ => cases h

theorem isSettled_putSection {checked : List (String × Entries Tree)}
    (hchecked : ∀ e ∈ (readResources checked).toOption.getD [], e.2.IsSettled) {template : Template}
    (h : template.IsSettled) (e : String × Tree) : (putSection checked template e).IsSettled where
  formatVersion := ite_present_ne_null h.formatVersion
  description := ite_present_ne_null h.description
  metadata := ite_present_ne_null h.metadata
  transform := ite_present_ne_null h.transform
  resources := by
    dsimp only [putSection]
    split
    · exact hchecked
    · exact h.resources

theorem isSettled_of_checkResources {bodies : Entries Tree} {checked : List (String × Entries Tree)}
    (hcheck : checkResources bodies = .ok checked) :
    ∀ e ∈ (readResources checked).toOption.getD [], e.2.IsSettled := by
  cases hread : readResources checked with
  | error fault => exact List.forall_mem_nil _
  | ok resources =>
    have hbodies := forall₂_readBody_iff.1 ⟨checked, hcheck, hread⟩
    exact forall_mem_of_forall₂ hbodies fun e _ f hef => isSettled_of_readBody hef.2

theorem exists_checkResources_of_ofTree {tree : Tree} {template : Template} (h : ofTree tree = .ok template) :
    ∃ root bodies checked, tree = .object root ∧ checkResources bodies = .ok checked ∧
      readSections checked .blank (withoutNullSections root) = .ok template := by
  cases tree with
  | object root =>
    rw [ofTree_object] at h
    split at h
    · exact ⟨root, [], [], rfl, rfl, h⟩
    · rename_i bodies _
      obtain ⟨checked, hcheck, h⟩ := bind_eq_ok_iff.1 h
      exact ⟨root, bodies, checked, rfl, hcheck, h⟩
    · cases h
  | _ => cases h

/-- Nulls are not read as attributes and sections. -/
theorem isSettled_of_ofTree {tree : Tree} {template : Template} (h : ofTree tree = .ok template) :
    template.IsSettled := by
  obtain ⟨root, bodies, checked, rfl, hcheck, h⟩ := exists_checkResources_of_ofTree h
  rw [readSections_eq_foldlM, foldlM_eq_ok_iff (readSection_eq_ok_iff checked)] at h
  obtain ⟨-, rfl⟩ := h
  have hchecked := isSettled_of_checkResources hcheck
  -- Keys may be written twice here: each entry leaves the template settled, whatever was read before it.
  have hblank : Template.blank.IsSettled := ⟨nofun, nofun, nofun, nofun, nofun⟩
  exact List.foldlRecOn _ _ hblank fun template htemplate e _ => isSettled_putSection hchecked htemplate e

end Template

@[simp]
theorem Tree.get?_object (entries : Entries Tree) (key : String) : (Tree.object entries).get? key = entries.get? key := rfl

@[simp]
theorem Tree.entries_object (entries : Entries Tree) : (Tree.object entries).entries = entries := rfl

@[simp]
theorem Entries.get?_nil {α : Type} (key : String) : Entries.get? ([] : Entries α) key = none := rfl

@[simp]
theorem Entries.get?_append {α : Type} (front rest : Entries α) (key : String) :
    Entries.get? (front ++ rest) key = (front.get? key).or (rest.get? key) := by
  simp only [get?, List.find?_append, Option.map_or]

namespace Template

@[simp]
theorem get?_optionalEntry (name : String) (value : Option Tree) (key : String) :
    Entries.get? (optionalEntry name value) key = if name = key then value else none := by
  cases value with
  | none => simp [optionalEntry, Entries.get?]
  | some value => exact Entries.get?_cons (name, value) [] key

theorem keys_optionalEntry_sublist (name : String) (value : Option Tree) :
    (Entries.keys (optionalEntry name value)).Sublist [name] := by
  cases value with
  | none => exact List.nil_sublist _
  | some value => exact List.Sublist.refl _

theorem forall_mem_optionalEntry_iff {name : String} {value : Option Tree} {p : String × Tree → Prop} :
    (∀ e ∈ optionalEntry name value, p e) ↔ ∀ x, value = some x → p (name, x) := by
  cases value <;> simp [optionalEntry]

theorem readPolicy_getD_map_name (policy : Option Policy) :
    readPolicy ((policy.map fun p => Tree.string p.name).getD .null) = policy := by
  cases policy with
  | none => rfl
  | some policy => cases policy <;> rfl

end Template

open Template

theorem Policy.isPolicy_name (policy : Policy) : IsPolicy (.string policy.name) := by
  refine ⟨policy.name, ?_, rfl⟩
  cases policy <;> decide

theorem isAttribute_of_not_mem {attr : String} (value : Tree)
    (h : attr ∉ ["Type", "Properties", "DeletionPolicy", "UpdateReplacePolicy"]) : IsAttribute attr value := by
  simp only [List.mem_cons, List.not_mem_nil, or_false, not_or] at h
  obtain ⟨htype, hproperties, hdeletion, hreplace⟩ := h
  exact ⟨fun h => absurd h htype, fun h => absurd h hproperties, fun h => absurd h hdeletion, fun h => absurd h hreplace⟩

theorem isSection_of_not_mem {name : String} (value : Tree) (h : name ∉ mapSections) : IsSection name value := by
  have hentries : ∀ name ∈ ["Parameters", "Mappings", "Conditions", "Outputs"], name ∈ mapSections := by decide
  exact ⟨fun hname => absurd (hentries name hname) h, fun hname => absurd (hname ▸ by decide) h⟩

namespace Resource

theorem nodup_keys_toTree (resource : Resource) : resource.toTree.entries.keys.Nodup := by
  have hsublist : resource.toTree.entries.keys.Sublist
      (["Type", "Properties"] ++ ["DependsOn"] ++ ["Condition"] ++ ["Metadata"] ++ ["DeletionPolicy"] ++
        ["UpdateReplacePolicy"] ++ ["CreationPolicy"] ++ ["UpdatePolicy"]) := by
    simp only [toTree, Tree.entries_object, Entries.keys, List.map_append, policyEntry]
    repeat' refine List.Sublist.append ?_ (keys_optionalEntry_sublist _ _)
    exact List.Sublist.refl _
  exact hsublist.nodup (by decide)

theorem isMapping_toTree (resource : Resource) : resource.toTree.IsMapping IsAttribute := by
  have htype : IsAttribute "Type" (.string resource.resourceType) := by constructor <;> simp
  have hproperties : IsAttribute "Properties" (.object resource.properties) := by
    constructor <;> simp [isMapping_object_iff]
  have hpolicy {policy : Option Policy} {value : Tree} (h : (policy.map fun p => Tree.string p.name) = some value) :
      value.IsPolicy := by
    obtain ⟨policy, -, rfl⟩ := Option.map_eq_some_iff.1 h
    exact policy.isPolicy_name
  have hdeletion {value : Tree} (h : value.IsPolicy) : IsAttribute "DeletionPolicy" value := by constructor <;> simp [h]
  have hreplace {value : Tree} (h : value.IsPolicy) : IsAttribute "UpdateReplacePolicy" value := by
    constructor <;> simp [h]
  have hother {attr : String} {held : Option Tree}
      (h : attr ∉ ["Type", "Properties", "DeletionPolicy", "UpdateReplacePolicy"]) (value : Tree) :
      held = some value → IsAttribute attr value :=
    fun _ => isAttribute_of_not_mem value h
  rw [toTree, isMapping_object_iff]
  simp only [List.forall_mem_append, List.forall_mem_cons, forall_mem_optionalEntry_iff, policyEntry, and_assoc]
  exact ⟨htype, hproperties, List.forall_mem_nil _, hother (by decide), hother (by decide), hother (by decide),
    fun value h => hdeletion (hpolicy h), fun value h => hreplace (hpolicy h), hother (by decide), hother (by decide)⟩

/-- A written body says what its resource holds. -/
theorem IsSettled.reflects_toTree {resource : Resource} (h : resource.IsSettled) :
    resource.Reflects resource.toTree where
  resourceType := by simp [valueAt, toTree, Entries.get?_cons, asString?]
  properties := by simp [valueAt, toTree, Entries.get?_cons]
  dependsOn := by simp [valueAt, toTree, Entries.get?_cons, policyEntry, present_getD h.dependsOn]
  condition := by simp [valueAt, toTree, Entries.get?_cons, policyEntry, present_getD h.condition]
  metadata := by simp [valueAt, toTree, Entries.get?_cons, policyEntry, present_getD h.metadata]
  deletionPolicy := by simp [valueAt, toTree, Entries.get?_cons, policyEntry, readPolicy_getD_map_name]
  updateReplacePolicy := by simp [valueAt, toTree, Entries.get?_cons, policyEntry, readPolicy_getD_map_name]
  creationPolicy := by simp [valueAt, toTree, Entries.get?_cons, policyEntry, present_getD h.creationPolicy]
  updatePolicy := by simp [valueAt, toTree, Entries.get?_cons, policyEntry, present_getD h.updatePolicy]

theorem Reflects.hasDistinctKeys_toTree {resource : Resource} {body : Tree} (hbody : body.HasDistinctKeys)
    (h : resource.Reflects body) : resource.toTree.HasDistinctKeys := by
  have hpolicy (policy : Option Policy) (value : Tree) (h : (policy.map fun p => Tree.string p.name) = some value) :
      value.HasDistinctKeys := by
    obtain ⟨policy, -, rfl⟩ := Option.map_eq_some_iff.1 h
    nofun
  have hproperties : (Tree.object resource.properties).HasDistinctKeys :=
    h.properties ▸ (hbody.valueAt "Properties").object_entries
  refine EntriesAreDistinct.object ⟨resource.nodup_keys_toTree, ?_⟩
  simp only [List.forall_mem_append, List.forall_mem_cons, forall_mem_optionalEntry_iff, policyEntry, and_assoc]
  exact ⟨nofun, hproperties, List.forall_mem_nil _, hbody.of_present h.dependsOn, hbody.of_present h.condition,
    hbody.of_present h.metadata, hpolicy _, hpolicy _, hbody.of_present h.creationPolicy, hbody.of_present h.updatePolicy⟩

end Resource

namespace Template

theorem valueAt_toTree_resources (template : Template) :
    template.toTree.valueAt "Resources" = .object (template.resources.map fun e => (e.1, e.2.toTree)) := by
  simp [valueAt, toTree, Entries.get?_cons]

theorem namesOnce_toTree (template : Template) : template.toTree.NamesOnce where
  sections := by
    have hsublist : template.toTree.entries.keys.Sublist
        (["AWSTemplateFormatVersion"] ++ ["Description"] ++ ["Metadata"] ++ ["Transform"] ++ mapSections) := by
      simp only [toTree, Tree.entries_object, Entries.keys, List.map_append]
      refine List.Sublist.append ?_ (List.Sublist.refl _)
      repeat' refine List.Sublist.append ?_ (keys_optionalEntry_sublist _ _)
      exact keys_optionalEntry_sublist _ _
    exact hsublist.nodup (by decide)
  attributes := by
    rw [valueAt_toTree_resources]
    exact List.forall_mem_map.2 fun e _ => e.2.nodup_keys_toTree

theorem isWellFormed_toTree (template : Template) : template.toTree.IsWellFormed := by
  have hmap {name : String} (entries : Entries Tree) (hname : name ≠ "Resources") : IsSection name (.object entries) :=
    ⟨fun _ => isMapping_object_iff.2 fun _ _ => trivial, fun h => absurd h hname⟩
  have hresources : IsSection "Resources" (.object (template.resources.map fun e => (e.1, e.2.toTree))) :=
    ⟨fun h => absurd h (by decide),
      fun _ => isMapping_object_iff.2 (List.forall_mem_map.2 fun e _ => e.2.isMapping_toTree)⟩
  have hother {name : String} {held : Option Tree} (h : name ∉ mapSections) (value : Tree) :
      held = some value → IsSection name value :=
    fun _ => isSection_of_not_mem value h
  refine ⟨_, rfl, ?_⟩
  simp only [List.forall_mem_append, List.forall_mem_cons, forall_mem_optionalEntry_iff, and_assoc]
  exact ⟨hother (by decide), hother (by decide), hother (by decide), hother (by decide), hmap _ (by decide),
    hmap _ (by decide), hmap _ (by decide), hresources, hmap _ (by decide), List.forall_mem_nil _⟩

/-- A written tree says what its template holds. -/
theorem IsSettled.reflects_toTree {template : Template} (h : template.IsSettled) :
    template.Reflects template.toTree where
  formatVersion := by simp [valueAt, toTree, Entries.get?_cons, present_getD h.formatVersion]
  description := by simp [valueAt, toTree, Entries.get?_cons, present_getD h.description]
  metadata := by simp [valueAt, toTree, Entries.get?_cons, present_getD h.metadata]
  transform := by simp [valueAt, toTree, Entries.get?_cons, present_getD h.transform]
  parameters := by simp [valueAt, toTree, Entries.get?_cons]
  mappings := by simp [valueAt, toTree, Entries.get?_cons]
  conditions := by simp [valueAt, toTree, Entries.get?_cons]
  resources := by
    rw [valueAt_toTree_resources]
    refine List.forall₂_map_left_iff.2 (List.forall₂_same.2 fun e he => ⟨rfl, ?_⟩)
    exact (h.resources e he).reflects_toTree
  outputs := by simp [valueAt, toTree, Entries.get?_cons]

theorem Reflects.hasDistinctKeys_toTree {template : Template} {tree : Tree} (htree : tree.HasDistinctKeys)
    (h : template.Reflects tree) : template.toTree.HasDistinctKeys := by
  have hmap {held : Entries Tree} {key : String} (hheld : held = (tree.valueAt key).entries) :
      (Tree.object held).HasDistinctKeys :=
    hheld ▸ (htree.valueAt key).object_entries
  have hbodies := (htree.valueAt "Resources").object_entries
  have hresources : (Tree.object (template.resources.map fun e => (e.1, e.2.toTree))).HasDistinctKeys := by
    refine EntriesAreDistinct.object ⟨?_, List.forall_mem_map.2 ?_⟩
    · have hkeys : Entries.keys (template.resources.map fun e => (e.1, e.2.toTree)) = template.resources.keys := by
        rw [Entries.keys, List.map_map]
        rfl
      rw [hkeys, h.keys_resources]
      exact hbodies.keys
    · exact forall_mem_of_forall₂ h.resources fun e he f hef => hef.2.hasDistinctKeys_toTree (hbodies.entry he)
  refine EntriesAreDistinct.object ⟨(namesOnce_toTree template).sections, ?_⟩
  simp only [List.forall_mem_append, List.forall_mem_cons, forall_mem_optionalEntry_iff, and_assoc]
  exact ⟨htree.of_present h.formatVersion, htree.of_present h.description, htree.of_present h.metadata,
    htree.of_present h.transform, hmap h.parameters, hmap h.mappings, hmap h.conditions, hresources, hmap h.outputs,
    List.forall_mem_nil _⟩

/-- Those templates are read as they were written that hold no null. -/
theorem ofTree_toTree_iff {template : Template} : ofTree template.toTree = .ok template ↔ template.IsSettled := by
  refine ⟨isSettled_of_ofTree, fun h => ?_⟩
  -- What is read again says what is written, and so it is what was written.
  have hnames := namesOnce_toTree template
  obtain ⟨again, hagain⟩ := (exists_ofTree_iff hnames).2 (isWellFormed_toTree template)
  rw [hagain, (reflects_of_ofTree hnames hagain).unique h.reflects_toTree]

/-- A template that was read and is written is read as the same template, and that is written as the same tree. What was
written says the same as what was read: neither nulls nor absences come in between. -/
theorem ofTree_reads_written {tree : Tree} {template : Template} (h : ofTree tree = .ok template) :
    ofTree template.toTree = .ok template ∧
    (∀ again, ofTree template.toTree = .ok again → again.toTree = template.toTree) ∧
    template.Reflects template.toTree ∧
    (tree.HasDistinctKeys → template.Reflects tree ∧ template.toTree.HasDistinctKeys) := by
  have hsettled := isSettled_of_ofTree h
  have hwritten := ofTree_toTree_iff.2 hsettled
  refine ⟨hwritten, fun again hagain => ?_, hsettled.reflects_toTree, fun hkeys => ?_⟩
  · rw [hwritten] at hagain
    rw [Except.ok.inj hagain]
  · have hreflects := reflects_of_ofTree hkeys.namesOnce h
    exact ⟨hreflects, hreflects.hasDistinctKeys_toTree hkeys⟩

def looseTree : Tree :=
  .object [("Outputs", .null), ("Description", .null), ("Author", .string "a"),
    ("Resources", .object [("Store", .object [("Condition", .null), ("UpdateReplacePolicy", .string "Retain"),
      ("Properties", .null)])])]

def tightTree : Tree :=
  .object [("Parameters", .object []), ("Mappings", .object []), ("Conditions", .object []),
    ("Resources", .object [("Store", .object [("Type", .string ""), ("Properties", .object []),
      ("UpdateReplacePolicy", .string "Retain")])]),
    ("Outputs", .object [])]

/-- Reading the written tree gives the template again, and no key of it is written twice. -/
theorem ofTree_reads_tightTree : ∃ template, ofTree looseTree = .ok template ∧ template.toTree = tightTree ∧
    ofTree tightTree = .ok template ∧ looseTree.HasDistinctKeys ∧ tightTree.HasDistinctKeys := by
  let template : Template :=
    { Template.blank with resources := [("Store", { Resource.blank with updateReplacePolicy := some .retain })] }
  have hread : ofTree looseTree = .ok template := by
    rw [looseTree, ofTree_object]
    rfl
  have hkeys : looseTree.HasDistinctKeys := by
    have hstore : EntriesAreDistinct [("Condition", .null), ("UpdateReplacePolicy", .string "Retain"),
        ("Properties", .null)] :=
      .cons (by decide) nofun (.cons (by decide) nofun (.cons (by decide) nofun .nil))
    have hresources : EntriesAreDistinct [("Store", .object _)] := .cons (by decide) hstore.object .nil
    exact EntriesAreDistinct.object (.cons (by decide) nofun (.cons (by decide) nofun (.cons (by decide) nofun
      (.cons (by decide) hresources.object .nil))))
  obtain ⟨hagain, -, -, hdistinct⟩ := ofTree_reads_written hread
  exact ⟨template, hread, rfl, hagain, hkeys, (hdistinct hkeys).2⟩

end Template

end CloudTemplate
