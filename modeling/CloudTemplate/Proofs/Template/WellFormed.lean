import CloudTemplate.Proofs.Outcome
import CloudTemplate.Proofs.Tree.Entries
import Mathlib.Data.List.Forall2
/-! Trees that can be read as templates. What has to be a mapping is one, or is null, and what a resource says of its type
and its policies is text. A template that has been read holds what stood in its tree, name by name and in order. -/
namespace CloudTemplate

namespace Tree

def IsMapping (p : String → Tree → Prop) (tree : Tree) : Prop :=
  tree = .null ∨ ∃ entries, tree = .object entries ∧ ∀ e ∈ entries, p e.1 e.2

def IsPolicy (value : Tree) : Prop := ∃ s ∈ ["", "Delete", "Retain", "Snapshot"], value = .string s

structure IsAttribute (attr : String) (value : Tree) : Prop where
  type : attr = "Type" → ∃ s, value = .string s
  properties : attr = "Properties" → value.IsMapping fun _ _ => True
  deletionPolicy : attr = "DeletionPolicy" → value.IsPolicy
  updateReplacePolicy : attr = "UpdateReplacePolicy" → value.IsPolicy

structure IsSection (name : String) (value : Tree) : Prop where
  entries : name ∈ ["Parameters", "Mappings", "Conditions", "Outputs"] → value.IsMapping fun _ _ => True
  resources : name = "Resources" → value.IsMapping fun _ body => body.IsMapping IsAttribute

def IsWellFormed (tree : Tree) : Prop := ∃ root, tree = .object root ∧ ∀ e ∈ root, IsSection e.1 e.2

/-- The value under a key. Where there is none it is null. -/
def valueAt (tree : Tree) (key : String) : Tree := (tree.get? key).getD .null

def entries (tree : Tree) : Entries Tree := tree.asObject?.getD []

structure NamesOnce (tree : Tree) : Prop where
  sections : tree.entries.keys.Nodup
  attributes : ∀ e ∈ (tree.valueAt "Resources").entries, e.2.entries.keys.Nodup

theorem IsMapping.imp {p q : String → Tree → Prop} (himp : ∀ key value, p key value → q key value) {tree : Tree}
    (h : tree.IsMapping p) : tree.IsMapping q := by
  obtain rfl | ⟨entries, rfl, hentries⟩ := h
  · exact .inl rfl
  · exact .inr ⟨entries, rfl, fun e he => himp e.1 e.2 (hentries e he)⟩

theorem isMapping_object_iff {p : String → Tree → Prop} {entries : Entries Tree} :
    (Tree.object entries).IsMapping p ↔ ∀ e ∈ entries, p e.1 e.2 := by
  simp [IsMapping]

theorem isMapping_iff_entries {p : String → Tree → Prop} {value : Tree} :
    value.IsMapping p ↔ value.IsMapping (fun _ _ => True) ∧ ∀ e ∈ value.entries, p e.1 e.2 := by
  cases value <;> simp [IsMapping, Tree.entries, asObject?]

theorem valueAt_of_mem {root : Entries Tree} (hkeys : root.keys.Nodup) {e : String × Tree} (he : e ∈ root) :
    (Tree.object root).valueAt e.1 = e.2 := by
  have hget : (Tree.object root).get? e.1 = some e.2 := Entries.get?_of_mem hkeys he
  rw [valueAt, hget]
  rfl

/-- The value under a key is one of the values of a mapping, if it is not null. -/
theorem forall_mem_iff_valueAt {root : Entries Tree} (hkeys : root.keys.Nodup) {key : String} {p : Tree → Prop}
    (hnull : p .null) : (∀ e ∈ root, e.1 = key → p e.2) ↔ p ((Tree.object root).valueAt key) := by
  rw [← Entries.forall_get?_iff hkeys]
  cases hget : Entries.get? root key <;> simp [valueAt, Tree.get?, asObject?, hget, hnull]

theorem HasDistinctKeys.valueAt {tree : Tree} (h : tree.HasDistinctKeys) (key : String) :
    (tree.valueAt key).HasDistinctKeys := by
  rw [Tree.valueAt]
  cases hget : tree.get? key with
  | none => nofun
  | some value =>
    cases tree with
    | object root => exact h.entry (Entries.mem_of_get? hget)
    | _ => cases hget

theorem HasDistinctKeys.object_entries {tree : Tree} (h : tree.HasDistinctKeys) :
    (Tree.object tree.entries).HasDistinctKeys := by
  cases tree with
  | object entries => exact h
  | _ => exact EntriesAreDistinct.nil.object

theorem HasDistinctKeys.namesOnce {tree : Tree} (h : tree.HasDistinctKeys) : tree.NamesOnce where
  sections := h.object_entries.keys
  attributes := fun _ he => ((h.valueAt "Resources").object_entries.entry he).object_entries.keys

theorem isMapping_iff {value : Tree} :
    value.IsMapping (fun _ _ => True) ↔ (value ≠ .null → ∃ entries, value = .object entries) := by
  simp only [IsMapping, implies_true, and_true, or_iff_not_imp_left, Ne]

end Tree

structure Resource.Reflects (resource : Resource) (body : Tree) : Prop where
  resourceType : resource.resourceType = (body.valueAt "Type").asString?.getD ""
  properties : resource.properties = (body.valueAt "Properties").entries
  dependsOn : resource.dependsOn = (body.valueAt "DependsOn").present
  condition : resource.condition = (body.valueAt "Condition").present
  metadata : resource.metadata = (body.valueAt "Metadata").present
  deletionPolicy : resource.deletionPolicy = Template.readPolicy (body.valueAt "DeletionPolicy")
  updateReplacePolicy : resource.updateReplacePolicy = Template.readPolicy (body.valueAt "UpdateReplacePolicy")
  creationPolicy : resource.creationPolicy = (body.valueAt "CreationPolicy").present
  updatePolicy : resource.updatePolicy = (body.valueAt "UpdatePolicy").present

structure Template.Reflects (template : Template) (tree : Tree) : Prop where
  formatVersion : template.formatVersion = (tree.valueAt "AWSTemplateFormatVersion").present
  description : template.description = (tree.valueAt "Description").present
  metadata : template.metadata = (tree.valueAt "Metadata").present
  transform : template.transform = (tree.valueAt "Transform").present
  parameters : template.parameters = (tree.valueAt "Parameters").entries
  mappings : template.mappings = (tree.valueAt "Mappings").entries
  conditions : template.conditions = (tree.valueAt "Conditions").entries
  resources : List.Forall₂ (fun e f => e.1 = f.1 ∧ f.2.Reflects e.2) (tree.valueAt "Resources").entries template.resources
  outputs : template.outputs = (tree.valueAt "Outputs").entries

/-- What a body says makes up a resource. -/
theorem Resource.Reflects.unique {resource other : Resource} {body : Tree} (h : resource.Reflects body)
    (hother : other.Reflects body) : resource = other := by
  cases resource
  cases other
  simp only [Resource.mk.injEq]
  exact ⟨h.resourceType.trans hother.resourceType.symm, h.properties.trans hother.properties.symm,
    h.dependsOn.trans hother.dependsOn.symm, h.condition.trans hother.condition.symm,
    h.metadata.trans hother.metadata.symm, h.deletionPolicy.trans hother.deletionPolicy.symm,
    h.updateReplacePolicy.trans hother.updateReplacePolicy.symm, h.creationPolicy.trans hother.creationPolicy.symm,
    h.updatePolicy.trans hother.updatePolicy.symm⟩

theorem Resource.reflects_blank : Resource.blank.Reflects .null := ⟨rfl, rfl, rfl, rfl, rfl, rfl, rfl, rfl, rfl⟩

/-- What a tree says makes up a template. -/
theorem Template.Reflects.unique {template other : Template} {tree : Tree} (h : template.Reflects tree)
    (hother : other.Reflects tree) : template = other := by
  have hresource : Relator.RightUnique fun (e : String × Tree) (f : String × Resource) => e.1 = f.1 ∧ f.2.Reflects e.2 :=
    fun e f g hf hg => Prod.ext (hf.1.symm.trans hg.1) (hf.2.unique hg.2)
  have hresources := hresource.forall₂ h.resources hother.resources
  cases template
  cases other
  simp only [Template.mk.injEq]
  exact ⟨h.formatVersion.trans hother.formatVersion.symm, h.description.trans hother.description.symm,
    h.metadata.trans hother.metadata.symm, h.transform.trans hother.transform.symm,
    h.parameters.trans hother.parameters.symm, h.mappings.trans hother.mappings.symm,
    h.conditions.trans hother.conditions.symm, hresources, h.outputs.trans hother.outputs.symm⟩

theorem Template.Reflects.keys_resources {template : Template} {tree : Tree} (h : template.Reflects tree) :
    template.resources.keys = (tree.valueAt "Resources").entries.keys := by
  have hnames := h.resources.imp fun e f hef => hef.1
  have hmap := List.forall₂_map_left_iff.2 (List.forall₂_map_right_iff.2 hnames)
  exact (List.forall₂_eq_eq_eq ▸ hmap).symm

open CloudTemplate.Tree

section

variable {ε α β σ : Type}

/-- Where each entry is either refused or put into the state, whatever the state is, all entries are read if none is
refused. -/
theorem foldlM_eq_ok_iff {read : σ → α → Except ε σ} {accepts : α → Prop} {put : σ → α → σ}
    (h : ∀ s e next, read s e = .ok next ↔ accepts e ∧ next = put s e) (entries : List α) (start result : σ) :
    entries.foldlM read start = .ok result ↔ (∀ e ∈ entries, accepts e) ∧ result = entries.foldl put start := by
  induction entries generalizing start with
  | nil => simp [pure, Except.pure, eq_comm]
  | cons e rest ih =>
    simp only [List.foldlM_cons, bind_eq_ok_iff, h, ih, List.forall_mem_cons, List.foldl_cons, and_assoc, exists_and_left,
      exists_eq_left]

theorem exists_forall₂_iff {r : α → β → Prop} {xs : List α} :
    (∃ ys, List.Forall₂ r xs ys) ↔ ∀ x ∈ xs, ∃ y, r x y := by
  induction xs with
  | nil => exact iff_of_true ⟨[], .nil⟩ fun _ h => absurd h List.not_mem_nil
  | cons x xs ih =>
    rw [List.forall_mem_cons, ← ih]
    constructor
    · rintro ⟨_, h⟩
      obtain ⟨y, ys, hy, hys, rfl⟩ := List.forall₂_cons_left_iff.1 h
      exact ⟨⟨y, hy⟩, ys, hys⟩
    · rintro ⟨⟨y, hy⟩, ys, hys⟩
      exact ⟨y :: ys, .cons hy hys⟩

/-- What the first of two related elements gives to the second holds throughout the second list. -/
theorem forall_mem_of_forall₂ {r : α → β → Prop} {p : β → Prop} {xs : List α} {ys : List β} (h : List.Forall₂ r xs ys)
    (hp : ∀ x ∈ xs, ∀ y, r x y → p y) : ∀ y ∈ ys, p y := by
  induction h with
  | nil => exact List.forall_mem_nil p
  | cons hxy _ ih =>
    obtain ⟨hx, hxs⟩ := List.forall_mem_cons.1 hp
    exact List.forall_mem_cons.2 ⟨hx _ hxy, ih hxs⟩

theorem elim_foldl (put : σ → String × Tree → σ) (field : σ → β) (key : String) (value : Tree → β)
    (h : ∀ s e, field (put s e) = if e.1 = key then value e.2 else field s) {entries : Entries Tree}
    (hkeys : entries.keys.Nodup) (start : σ) :
    field (entries.foldl put start) = (entries.get? key).elim (field start) value := by
  induction entries generalizing start with
  | nil => rfl
  | cons e rest ih =>
    rw [Entries.keys, List.map_cons, List.nodup_cons] at hkeys
    rw [List.foldl_cons, ih hkeys.2, h, Entries.get?_cons]
    split
    · rename_i hname
      rw [Entries.get?_eq_none_iff.2 (hname ▸ hkeys.1)]
      rfl
    · rfl

/-- A field that is filled by the entry of one key holds what that entry says, or what null says if there is none. -/
theorem field_foldl {put : σ → String × Tree → σ} (field : σ → β) (key : String) (value : Tree → β)
    (h : ∀ s e, field (put s e) = if e.1 = key then value e.2 else field s) {entries : Entries Tree}
    (hkeys : entries.keys.Nodup) {start : σ} (hstart : field start = value .null) :
    field (entries.foldl put start) = value ((entries.get? key).getD .null) := by
  rw [elim_foldl put field key value h hkeys, hstart]
  cases entries.get? key <;> rfl

end

namespace Template

theorem readAttributes_eq_foldlM (resource : Resource) (attrs : Entries Tree) :
    readAttributes resource attrs = attrs.foldlM (fun resource e => readAttribute resource e.1 e.2) resource := by
  induction attrs generalizing resource with
  | nil => rfl
  | cons e rest ih =>
    rw [readAttributes, List.foldlM_cons]
    exact bind_congr fun resource => ih resource

theorem readSections_eq_foldlM (resources : List (String × Entries Tree)) (template : Template) (root : Entries Tree) :
    readSections resources template root =
      root.foldlM (fun template e => readSection resources template e.1 e.2) template := by
  induction root generalizing template with
  | nil => rfl
  | cons e rest ih =>
    rw [readSections, List.foldlM_cons]
    exact bind_congr fun template => ih template

def putAttribute (resource : Resource) (e : String × Tree) : Resource where
  resourceType := if e.1 = "Type" then e.2.asString?.getD "" else resource.resourceType
  properties := if e.1 = "Properties" then e.2.entries else resource.properties
  dependsOn := if e.1 = "DependsOn" then e.2.present else resource.dependsOn
  condition := if e.1 = "Condition" then e.2.present else resource.condition
  metadata := if e.1 = "Metadata" then e.2.present else resource.metadata
  deletionPolicy := if e.1 = "DeletionPolicy" then readPolicy e.2 else resource.deletionPolicy
  updateReplacePolicy := if e.1 = "UpdateReplacePolicy" then readPolicy e.2 else resource.updateReplacePolicy
  creationPolicy := if e.1 = "CreationPolicy" then e.2.present else resource.creationPolicy
  updatePolicy := if e.1 = "UpdatePolicy" then e.2.present else resource.updatePolicy

theorem readAttribute_eq_ok_iff (resource : Resource) (e : String × Tree) (next : Resource) :
    readAttribute resource e.1 e.2 = .ok next ↔
      ((e.1 = "Type" → ∃ s, e.2 = .string s) ∧ (e.1 = "Properties" → ∃ entries, e.2 = .object entries)) ∧
        next = putAttribute resource e := by
  obtain ⟨key, value⟩ := e
  unfold readAttribute
  dsimp only
  split
  case h_1 =>
    cases value <;> simp [readString, putAttribute, bind, Except.bind, pure, Except.pure, asString?, eq_comm]
  case h_2 =>
    cases value <;> simp [readMap, putAttribute, bind, Except.bind, pure, Except.pure, Tree.entries, asObject?, eq_comm]
  case h_10 h1 h2 h3 h4 h5 h6 h7 h8 h9 =>
    rw [putAttribute, if_neg h1, if_neg h2, if_neg h3, if_neg h4, if_neg h5, if_neg h6, if_neg h7, if_neg h8, if_neg h9]
    refine ⟨fun h => ⟨⟨fun hkey => absurd hkey h1, fun hkey => absurd hkey h2⟩, (Except.ok.inj h).symm⟩, fun h => ?_⟩
    exact congrArg _ h.2.symm
  all_goals simp [putAttribute, eq_comm]

theorem isSome_ofName?_iff {name : String} :
    (Policy.ofName? name).isSome = true ↔ name ∈ ["", "Delete", "Retain", "Snapshot"] := by
  simp only [Policy.ofName?, Policy.all, List.find?_isSome, List.mem_cons, List.not_mem_nil, or_false, exists_eq_or_imp,
    exists_eq_left, Policy.name, beq_iff_eq, eq_comm (b := name)]

theorem checkPolicy_eq_ok_iff {resource field : String} {value : Option Tree} :
    checkPolicy resource field value = .ok () ↔ ∀ x, value = some x → x.IsPolicy := by
  cases value with
  | none => exact iff_of_true rfl nofun
  | some x =>
    cases x with
    | string s =>
      have hname : checkPolicy resource field (some (.string s)) = .ok () ↔ (Policy.ofName? s).isSome = true := by
        rw [checkPolicy]
        split <;> rename_i hname <;> simp [hname]
      rw [hname, isSome_ofName?_iff]
      simp only [Option.some.injEq, forall_eq', IsPolicy, Tree.string.injEq, exists_eq_right']
    | _ => simp [checkPolicy, IsPolicy]

def readBody (name : String) (body : Tree) : Except TemplateFault Resource :=
  checkResource name body >>= readAttributes .blank

theorem checkResource_object (name : String) (attrs : Entries Tree) :
    checkResource name (.object attrs) = (do
      checkPolicy name "DeletionPolicy" ((attrs.dropNull "Properties").get? "DeletionPolicy")
      checkPolicy name "UpdateReplacePolicy" ((attrs.dropNull "Properties").get? "UpdateReplacePolicy")
      return attrs.dropNull "Properties") := rfl

theorem readBody_object_eq_ok_iff {name : String} {attrs : Entries Tree} {resource : Resource} :
    readBody name (.object attrs) = .ok resource ↔
      checkPolicy name "DeletionPolicy" ((attrs.dropNull "Properties").get? "DeletionPolicy") = .ok () ∧
      checkPolicy name "UpdateReplacePolicy" ((attrs.dropNull "Properties").get? "UpdateReplacePolicy") = .ok () ∧
      (attrs.dropNull "Properties").foldlM (fun resource e => readAttribute resource e.1 e.2) .blank = .ok resource := by
  rw [← readAttributes_eq_foldlM, readBody, checkResource_object, bind_assoc, check_bind_eq_ok_iff, bind_assoc,
    check_bind_eq_ok_iff]
  rfl

theorem isAttribute_iff {attr : String} {value : Tree} :
    ((attr = "Properties" → value ≠ .null) → (attr = "DeletionPolicy" → value.IsPolicy) ∧
      (attr = "UpdateReplacePolicy" → value.IsPolicy) ∧ (attr = "Type" → ∃ s, value = .string s) ∧
      (attr = "Properties" → ∃ entries, value = .object entries)) ↔ IsAttribute attr value := by
  constructor
  · intro h
    have hother (hattr : attr ≠ "Properties") := h fun hproperties => absurd hproperties hattr
    refine ⟨fun hattr => ?_, fun hattr => ?_, fun hattr => ?_, fun hattr => ?_⟩
    · exact (hother (by simp [hattr])).2.2.1 hattr
    · exact isMapping_iff.2 fun hnull => (h fun _ => hnull).2.2.2 hattr
    · exact (hother (by simp [hattr])).1 hattr
    · exact (hother (by simp [hattr])).2.1 hattr
  · intro h hkept
    refine ⟨h.deletionPolicy, h.updateReplacePolicy, h.type, fun hattr => ?_⟩
    exact isMapping_iff.1 (h.properties hattr) (hkept hattr)

theorem readBody_object_iff {name : String} {attrs : Entries Tree} (hkeys : attrs.keys.Nodup) {resource : Resource} :
    readBody name (.object attrs) = .ok resource ↔
      (Tree.object attrs).IsMapping IsAttribute ∧ resource = (attrs.dropNull "Properties").foldl putAttribute .blank := by
  have hdrop := Entries.nodup_keys_dropNull hkeys "Properties"
  rw [readBody_object_eq_ok_iff, foldlM_eq_ok_iff readAttribute_eq_ok_iff, ← and_assoc, ← and_assoc]
  refine and_congr_left fun _ => ?_
  simp only [checkPolicy_eq_ok_iff, Entries.forall_get?_iff hdrop, Entries.mem_dropNull_iff hkeys, isMapping_object_iff,
    and_imp, ← forall_and, and_assoc]
  exact forall₂_congr fun e _ => isAttribute_iff

theorem exists_readBody_iff {name : String} {body : Tree} (hkeys : body.entries.keys.Nodup) :
    (∃ resource, readBody name body = .ok resource) ↔ body.IsMapping IsAttribute := by
  cases body with
  | null => exact iff_of_true ⟨.blank, rfl⟩ (.inl rfl)
  | object attrs =>
    have hattrs : (Entries.keys attrs).Nodup := hkeys
    simp only [readBody_object_iff hattrs, exists_and_left, exists_eq, and_true]
  | _ =>
    refine iff_of_false ?_ ?_
    · rintro ⟨_, h⟩
      cases h
    · rintro (h | ⟨_, h, -⟩) <;> cases h

theorem reflects_of_readBody {name : String} {body : Tree} {resource : Resource} (hkeys : body.entries.keys.Nodup)
    (h : readBody name body = .ok resource) : resource.Reflects body := by
  cases body with
  | null =>
    cases h
    exact Resource.reflects_blank
  | object attrs =>
    have hfield {β : Type} (field : Resource → β) (key : String) (value : Tree → β)
        (hput : ∀ resource e, field (putAttribute resource e) = if e.1 = key then value e.2 else field resource)
        (hblank : field .blank = value .null) : field resource = value ((Tree.object attrs).valueAt key) := by
      have hdrop := Entries.nodup_keys_dropNull hkeys "Properties"
      rw [((readBody_object_iff hkeys).1 h).2, field_foldl field key value hput hdrop hblank]
      exact congrArg value (Entries.getD_get?_foldl_dropNull ["Properties"] hkeys key)
    constructor
    · exact hfield _ _ (fun value => value.asString?.getD "") (fun _ _ => rfl) rfl
    · exact hfield _ _ Tree.entries (fun _ _ => rfl) rfl
    · exact hfield _ _ present (fun _ _ => rfl) rfl
    · exact hfield _ _ present (fun _ _ => rfl) rfl
    · exact hfield _ _ present (fun _ _ => rfl) rfl
    · exact hfield _ _ readPolicy (fun _ _ => rfl) rfl
    · exact hfield _ _ readPolicy (fun _ _ => rfl) rfl
    · exact hfield _ _ present (fun _ _ => rfl) rfl
    · exact hfield _ _ present (fun _ _ => rfl) rfl
  | _ => cases h

theorem forall₂_readBody_iff {bodies : Entries Tree} {resources : Entries Resource} :
    (∃ checked, checkResources bodies = .ok checked ∧ readResources checked = .ok resources) ↔
      List.Forall₂ (fun e f => e.1 = f.1 ∧ readBody e.1 e.2 = .ok f.2) bodies resources := by
  induction bodies generalizing resources with
  | nil => simp [checkResources, readResources, eq_comm]
  | cons e rest ih =>
    rw [List.forall₂_cons_left_iff]
    constructor
    · rintro ⟨checked, hcheck, hread⟩
      obtain ⟨attrs, hattrs, hcheck⟩ := bind_eq_ok_iff.1 hcheck
      obtain ⟨others, hothers, hcheck⟩ := bind_eq_ok_iff.1 hcheck
      cases hcheck
      obtain ⟨resource, hresource, hread⟩ := bind_eq_ok_iff.1 hread
      obtain ⟨more, hmore, hread⟩ := bind_eq_ok_iff.1 hread
      cases hread
      exact ⟨_, _, ⟨rfl, bind_eq_ok_iff.2 ⟨attrs, hattrs, hresource⟩⟩, ih.1 ⟨others, hothers, hmore⟩, rfl⟩
    · rintro ⟨⟨name, resource⟩, more, ⟨rfl, hbody⟩, hmore, rfl⟩
      obtain ⟨attrs, hattrs, hresource⟩ := bind_eq_ok_iff.1 hbody
      obtain ⟨others, hothers, hmore⟩ := ih.2 hmore
      refine ⟨(e.1, attrs) :: others, ?_, ?_⟩
      · exact bind_eq_ok_iff.2 ⟨attrs, hattrs, bind_eq_ok_iff.2 ⟨others, hothers, rfl⟩⟩
      · exact bind_eq_ok_iff.2 ⟨resource, hresource, bind_eq_ok_iff.2 ⟨more, hmore, rfl⟩⟩

def putSection (checked : List (String × Entries Tree)) (template : Template) (e : String × Tree) : Template where
  formatVersion := if e.1 = "AWSTemplateFormatVersion" then e.2.present else template.formatVersion
  description := if e.1 = "Description" then e.2.present else template.description
  metadata := if e.1 = "Metadata" then e.2.present else template.metadata
  transform := if e.1 = "Transform" then e.2.present else template.transform
  parameters := if e.1 = "Parameters" then e.2.entries else template.parameters
  mappings := if e.1 = "Mappings" then e.2.entries else template.mappings
  conditions := if e.1 = "Conditions" then e.2.entries else template.conditions
  resources := if e.1 = "Resources" then (readResources checked).toOption.getD [] else template.resources
  outputs := if e.1 = "Outputs" then e.2.entries else template.outputs

theorem readSection_eq_ok_iff (checked : List (String × Entries Tree)) (template : Template) (e : String × Tree)
    (next : Template) :
    readSection checked template e.1 e.2 = .ok next ↔
      ((e.1 ∈ ["Parameters", "Mappings", "Conditions", "Outputs"] → ∃ entries, e.2 = .object entries) ∧
        (e.1 = "Resources" → ∃ resources, readResources checked = .ok resources)) ∧
        next = putSection checked template e := by
  obtain ⟨key, value⟩ := e
  unfold readSection
  dsimp only
  split
  case h_5 | h_6 | h_7 | h_9 =>
    cases value <;> simp [readMap, putSection, bind, Except.bind, pure, Except.pure, Tree.entries, asObject?, eq_comm]
  case h_8 =>
    cases hread : readResources checked <;>
      simp [putSection, bind, Except.bind, pure, Except.pure, hread, Except.toOption, eq_comm]
  case h_10 h1 h2 h3 h4 h5 h6 h7 h8 h9 =>
    have hother : key ∉ ["Parameters", "Mappings", "Conditions", "Outputs"] := by
      simp only [List.mem_cons, List.not_mem_nil, or_false, not_or]
      exact ⟨h5, h6, h7, h9⟩
    rw [putSection, if_neg h1, if_neg h2, if_neg h3, if_neg h4, if_neg h5, if_neg h6, if_neg h7, if_neg h8, if_neg h9]
    refine ⟨fun h => ⟨⟨fun hkey => absurd hkey hother, fun hkey => absurd hkey h8⟩, (Except.ok.inj h).symm⟩, fun h => ?_⟩
    exact congrArg _ h.2.symm
  all_goals simp [putSection, eq_comm]

theorem ofTree_object (root : Entries Tree) :
    ofTree (.object root) =
      match (withoutNullSections root).get? "Resources" with
      | none => readSections [] .blank (withoutNullSections root)
      | some (.object resources) => checkResources resources >>= fun resources =>
          readSections resources .blank (withoutNullSections root)
      | some _ => .error (.structure .resourcesNotMapping) := by
  delta ofTree
  rfl

theorem withoutNullSections_eq_foldl (root : Entries Tree) :
    withoutNullSections root = mapSections.foldl Entries.dropNull root := rfl

theorem ofTree_object_iff {root : Entries Tree} (hkeys : root.keys.Nodup) {template : Template} :
    ofTree (.object root) = .ok template ↔
      ((Tree.object root).valueAt "Resources").IsMapping (fun _ _ => True) ∧
      ∃ checked, checkResources ((Tree.object root).valueAt "Resources").entries = .ok checked ∧
        readSections checked .blank (withoutNullSections root) = .ok template := by
  have hvalue : (Tree.object root).valueAt "Resources" = ((withoutNullSections root).get? "Resources").getD .null :=
    (Entries.getD_get?_foldl_dropNull mapSections hkeys "Resources").symm
  rw [ofTree_object, hvalue]
  cases hget : (withoutNullSections root).get? "Resources" with
  | none => simp [IsMapping, Tree.entries, asObject?, checkResources]
  | some value =>
    have hmem := (Entries.mem_foldl_dropNull_iff hkeys).1 (Entries.mem_of_get? hget)
    cases value with
    | null => exact absurd rfl (hmem.2 (by decide))
    | object resources => simp [isMapping_object_iff, Tree.entries, asObject?, bind_eq_ok_iff]
    | _ => simp [IsMapping]

/-- Resources can be read if each of their bodies can. -/
theorem exists_readResources_iff {bodies : Entries Tree} (hkeys : ∀ e ∈ bodies, e.2.entries.keys.Nodup) :
    (∃ checked, checkResources bodies = .ok checked ∧ ∃ resources, readResources checked = .ok resources) ↔
      ∀ e ∈ bodies, e.2.IsMapping IsAttribute := by
  simp only [← exists_and_left]
  rw [exists_comm]
  simp only [forall₂_readBody_iff, exists_forall₂_iff, Prod.exists, exists_eq_left', exists_and_left]
  exact forall₂_congr fun e he => exists_readBody_iff (hkeys e he)

theorem exists_ofTree_object_iff {root : Entries Tree} (hkeys : (Tree.object root).NamesOnce) :
    (∃ template, ofTree (.object root) = .ok template) ↔ ∀ e ∈ root, IsSection e.1 e.2 := by
  let bodies : Entries Tree := ((Tree.object root).valueAt "Resources").entries
  have hread := exists_readResources_iff hkeys.attributes
  have hroot : root.keys.Nodup := hkeys.sections
  have hmem := @Entries.mem_foldl_dropNull_iff root mapSections hroot
  simp only [ofTree_object_iff hroot, readSections_eq_foldlM, foldlM_eq_ok_iff (readSection_eq_ok_iff _),
    withoutNullSections_eq_foldl]
  constructor
  · rintro ⟨template, hmapping, checked, hcheck, haccept, -⟩ e he
    have hkept (hvalue : e.2 ≠ .null) := haccept e (hmem.2 ⟨he, fun _ => hvalue⟩)
    refine ⟨fun hname => isMapping_iff.2 fun hvalue => (hkept hvalue).1 hname, fun hname => ?_⟩
    by_cases hnull : e.2 = .null
    · exact .inl hnull
    have hvalue : (Tree.object root).valueAt "Resources" = e.2 := hname ▸ valueAt_of_mem hroot he
    rw [isMapping_iff_entries, ← hvalue]
    exact ⟨hmapping, hread.1 ⟨checked, hcheck, (hkept hnull).2 hname⟩⟩
  · intro hsections
    have hresources : ((Tree.object root).valueAt "Resources").IsMapping fun _ body => body.IsMapping IsAttribute :=
      (forall_mem_iff_valueAt hroot (.inl rfl)).1 fun e he => (hsections e he).resources
    obtain ⟨hmapping, hbodies⟩ := isMapping_iff_entries.1 hresources
    obtain ⟨checked, hcheck, hresources⟩ := hread.2 hbodies
    refine ⟨_, hmapping, checked, hcheck, fun e he => ?_, rfl⟩
    obtain ⟨he, hvalue⟩ := hmem.1 he
    refine ⟨fun hname => ?_, fun _ => hresources⟩
    have hsection : ∀ name ∈ ["Parameters", "Mappings", "Conditions", "Outputs"], name ∈ mapSections := by decide
    exact isMapping_iff.1 ((hsections e he).entries hname) (hvalue (hsection e.1 hname))

theorem exists_ofTree_iff {tree : Tree} (hkeys : tree.NamesOnce) :
    (∃ template, ofTree tree = .ok template) ↔ tree.IsWellFormed := by
  cases tree with
  | object root => simp [exists_ofTree_object_iff hkeys, IsWellFormed]
  | _ =>
    refine iff_of_false ?_ ?_
    · rintro ⟨_, h⟩
      cases h
    · rintro ⟨_, h, -⟩
      cases h

/-- A template that has been read reflects its tree. -/
theorem reflects_of_ofTree {tree : Tree} {template : Template} (hkeys : tree.NamesOnce)
    (h : ofTree tree = .ok template) : template.Reflects tree := by
  cases tree with
  | object root =>
    have hroot : (Entries.keys root).Nodup := hkeys.sections
    obtain ⟨-, checked, hcheck, hread⟩ := (ofTree_object_iff hroot).1 h
    rw [readSections_eq_foldlM, foldlM_eq_ok_iff (readSection_eq_ok_iff checked)] at hread
    obtain ⟨haccept, htemplate⟩ := hread
    have hkept : (withoutNullSections root).keys.Nodup := Entries.nodup_keys_foldl_dropNull hroot
    -- Each field is set under its own key alone, so it holds what the tree has there.
    have hfield {β : Type} (field : Template → β) (key : String) (value : Tree → β)
        (hput : ∀ template e, field (putSection checked template e) = if e.1 = key then value e.2 else field template)
        (hblank : field .blank = value .null) : field template = value ((Tree.object root).valueAt key) := by
      rw [htemplate, field_foldl field key value hput hkept hblank]
      exact congrArg value (Entries.getD_get?_foldl_dropNull mapSections hroot key)
    refine ⟨hfield _ _ present (fun _ _ => rfl) rfl, hfield _ _ present (fun _ _ => rfl) rfl,
      hfield _ _ present (fun _ _ => rfl) rfl, hfield _ _ present (fun _ _ => rfl) rfl,
      hfield _ _ Tree.entries (fun _ _ => rfl) rfl, hfield _ _ Tree.entries (fun _ _ => rfl) rfl,
      hfield _ _ Tree.entries (fun _ _ => rfl) rfl, ?_, hfield _ _ Tree.entries (fun _ _ => rfl) rfl⟩
    -- The resources are what was read of the checked ones, and not of the value of their section.
    have hresources := elim_foldl (putSection checked) Template.resources "Resources"
      (fun _ => (readResources checked).toOption.getD []) (fun _ _ => rfl) hkept .blank
    rw [htemplate, hresources]
    cases hget : (withoutNullSections root).get? "Resources" with
    | none =>
      have hvalue : (Tree.object root).valueAt "Resources" = .null := by
        have hdrop := Entries.getD_get?_foldl_dropNull mapSections hroot "Resources"
        rw [← withoutNullSections_eq_foldl, hget] at hdrop
        exact hdrop.symm
      rw [hvalue]
      exact .nil
    | some value =>
      obtain ⟨resources, hresources⟩ := (haccept _ (Entries.mem_of_get? hget)).2 rfl
      have hbodies := forall₂_readBody_iff.1 ⟨checked, hcheck, hresources⟩
      rw [hresources]
      refine ((List.forall₂_and_left _ _).2 ⟨hkeys.attributes, hbodies⟩).imp fun e f h => ?_
      exact ⟨h.2.1, reflects_of_readBody h.1 h.2.2⟩
  | _ => cases h

/-- Those trees are read as templates that are well-formed. What is read has the resources of the tree, each with its
properties, and its parameters, mappings, conditions and outputs, with their values and in their order. A resource
that is null is read as one without a type and without properties. -/
theorem ofTree_accepts_wellFormed {tree : Tree} (hkeys : tree.HasDistinctKeys) :
    ((∃ template, ofTree tree = .ok template) ↔ tree.IsWellFormed) ∧
    ∀ template, ofTree tree = .ok template → template.Reflects tree ∧
      template.resources.keys = (tree.valueAt "Resources").entries.keys ∧
      List.Forall₂ (fun e f => e.2 = .null → f.2 = .blank) (tree.valueAt "Resources").entries template.resources := by
  refine ⟨exists_ofTree_iff hkeys.namesOnce, fun template h => ?_⟩
  have hreflects := reflects_of_ofTree hkeys.namesOnce h
  refine ⟨hreflects, hreflects.keys_resources, hreflects.resources.imp fun e f hef hnull => ?_⟩
  have hbody := hef.2
  rw [hnull] at hbody
  exact hbody.unique Resource.reflects_blank

def spareTree : Tree :=
  .object [("Parameters", .null),
    ("Resources", .object [("Spare", .null),
      ("Queue", .object [("Properties", .null), ("DeletionPolicy", .string ""), ("Type", .string "Q")])]),
    ("Outputs", .object [("Name", .string "q")])]

def spare : Template :=
  { Template.blank with
    resources := [("Spare", .blank),
      ("Queue", { Resource.blank with resourceType := "Q", deletionPolicy := some .unset })]
    outputs := [("Name", .string "q")] }

/-- Null sections and null properties are left out, the null resource is kept. -/
theorem ofTree_accepts_spare : spareTree.HasDistinctKeys ∧ ofTree spareTree = .ok spare ∧ spareTree.IsWellFormed ∧
    spare.Reflects spareTree := by
  have hkeys : spareTree.HasDistinctKeys := by
    have hqueue : EntriesAreDistinct [("Properties", .null), ("DeletionPolicy", .string ""), ("Type", .string "Q")] :=
      .cons (by decide) nofun (.cons (by decide) nofun (.cons (by decide) nofun .nil))
    have houtputs : EntriesAreDistinct [("Name", .string "q")] := .cons (by decide) nofun .nil
    refine EntriesAreDistinct.object (.cons (by decide) nofun (.cons (by decide) ?_ (.cons (by decide) houtputs.object .nil)))
    exact EntriesAreDistinct.object (.cons (by decide) nofun (.cons (by decide) hqueue.object .nil))
  have hread : ofTree spareTree = .ok spare := by
    rw [spareTree, ofTree_object]
    rfl
  obtain ⟨haccepts, hreflects⟩ := ofTree_accepts_wellFormed hkeys
  exact ⟨hkeys, hread, haccepts.1 ⟨spare, hread⟩, (hreflects spare hread).1⟩

end Template

end CloudTemplate
