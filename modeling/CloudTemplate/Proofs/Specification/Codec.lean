import CloudTemplate.Specification.Wire
import CloudTemplate.Proofs.Json.Records
/-! Specifications that are written and read again. What is left out when a specification is written is what is filled in
for it when it is read, and what a shape forgets of a property's type is forgotten before it is written. -/
namespace CloudTemplate

open Json

def PropertyShape.IsWritten (shape : PropertyShape) : Prop := ∃ typeName itemType, shape = .ofType typeName itemType

/-- A shape is told by the type and the item type that it writes. -/
theorem PropertyShape.IsWritten.ofType_eq {shape : PropertyShape} (h : shape.IsWritten) :
    PropertyShape.ofType shape.typeName shape.itemType = shape := by
  obtain ⟨typeName, itemType, rfl⟩ := h
  by_cases hempty : typeName = ""
  · subst hempty
    rfl
  by_cases hlist : typeName = "List"
  · subst hlist
    cases itemType with
    | none => rfl
    | some item =>
      by_cases hitem : item = "" <;> simp [ofType, PropertyShape.typeName, PropertyShape.itemType, hitem]
  by_cases hmap : typeName = "Map"
  · subst hmap
    rfl
  · have hshape : PropertyShape.ofType typeName itemType = .structured typeName := by
      rw [ofType, if_neg hempty, if_neg hlist, if_neg hmap]
    rw [hshape, PropertyShape.typeName, ofType, if_neg hempty, if_neg hlist, if_neg hmap]

theorem RawProperty.toProperty_ofProperty {p : Property} (h : p.shape.IsWritten) : (ofProperty p).toProperty = p := by
  rw [toProperty, ofProperty]
  simp only [h.ofType_eq]

section

variable {σ : Type} {name : String} {fields : List (Json.Field σ)} {record final : σ} {entries : Entries Tree}

theorem fills_text {put : Option String → σ → σ} {x : Option String} (hnone : put none record = record)
    (h : Fills fields (put x record) entries final) :
    Fills (.optional name RawProperty.decodeName? put :: fields) record (optionalText name x ++ entries) final := by
  cases x with
  | none => exact .skip (hnone ▸ h)
  | some s => exact .optional ((encodes_string s).some nofun) h

theorem fills_flag {put : Option Bool → σ → σ} {x : Option Bool} (hnone : put none record = record)
    (h : Fills fields (put x record) entries final) :
    Fills (.optional name (decodeOption decodeBool) put :: fields) record (optionalFlag name x ++ entries) final := by
  cases x with
  | none => exact .skip (hnone ▸ h)
  | some b => exact .optional ((encodes_bool b).some nofun) h

/-- A text that is left out where it is empty. -/
theorem fills_nonempty {put : String → σ → σ} {s : String} (hempty : put "" record = record)
    (h : Fills fields (put s record) entries final) :
    Fills (.optional name decodeString put :: fields) record
      ((if s = "" then [] else [(name, .string s)]) ++ entries) final := by
  by_cases hs : s = ""
  · subst hs
    rw [if_pos rfl]
    exact .skip (hempty ▸ h)
  · rw [if_neg hs]
    exact .optional (encodes_string s) h

end

theorem encodes_rawProperty (r : RawProperty) : Encodes (decodeRecord RawProperty.shape) r.toTree r := by
  refine encodes_record (by decide) (by decide) ?_
  rw [← List.append_nil (optionalText "UpdateType" r.updateType)]
  simp only [List.append_assoc]
  refine fills_text rfl (.optional (encodes_bool _) ?_)
  refine fills_nonempty rfl (fills_text rfl (fills_text rfl (fills_text rfl ?_)))
  exact fills_flag rfl (fills_text rfl .nil)

theorem encodes_property {p : Property} (h : p.shape.IsWritten) : Encodes Property.decode p.toTree p := by
  have hmap := (encodes_rawProperty (.ofProperty p)).map RawProperty.toProperty
  rwa [RawProperty.toProperty_ofProperty h] at hmap

theorem encodes_attribute (a : Attribute) : Encodes (decodeRecord Attribute.shape) a.toTree a := by
  refine encodes_record (by decide) (by decide) ?_
  rw [← List.append_nil (optionalText "PrimitiveItemType" a.primitiveItemType)]
  simp only [List.append_assoc]
  exact fills_text rfl (fills_text rfl (fills_text rfl .nil))

structure HasProperties (properties : Entries Property) : Prop where
  nodup : properties.keys.Nodup
  written : ∀ e ∈ properties, e.2.shape.IsWritten

theorem encodes_properties {properties : Entries Property} (h : HasProperties properties) :
    Encodes (decodeEntries Property.decode) (treeOfEntries Property.toTree properties) properties :=
  encodes_entries h.nodup fun e he => encodes_property (h.written e he)

theorem encodes_propertyType {t : PropertyType} (h : HasProperties t.properties) :
    Encodes (decodeRecord PropertyType.shape) t.toTree t := by
  refine encodes_record (by decide) (by decide) ?_
  exact fills_text rfl (.optional (encodes_properties h) .nil)

theorem encodes_resourceType {t : ResourceType} (hattrs : t.attrs.keys.Nodup) (h : HasProperties t.properties) :
    Encodes (decodeRecord ResourceType.shape) t.toTree t := by
  refine encodes_record (by decide) (by decide) ?_
  refine fills_text rfl (.optional (encodes_entries hattrs fun e _ => encodes_attribute e.2) ?_)
  exact .optional (encodes_properties h) .nil

structure Specification.IsReadable (s : Specification) : Prop where
  propertyNames : s.propertyTypes.keys.Nodup
  propertyTypes : ∀ e ∈ s.propertyTypes, HasProperties e.2.properties
  resourceNames : s.resourceTypes.keys.Nodup
  resourceTypes : ∀ e ∈ s.resourceTypes, e.2.attrs.keys.Nodup ∧ HasProperties e.2.properties

theorem encodes_specification {s : Specification} (h : s.IsReadable) : Encodes Specification.decode s.toTree s := by
  refine encodes_record (by decide) (by decide) (.optional (encodes_string _) ?_)
  refine .optional (encodes_entries h.propertyNames fun e he => encodes_propertyType (h.propertyTypes e he)) ?_
  refine .optional (encodes_entries h.resourceNames fun e he => ?_) .nil
  exact encodes_resourceType (h.resourceTypes e he).1 (h.resourceTypes e he).2

theorem isWritten_of_decode {node : Node} {p : Property} (h : Property.decode node = .ok p) : p.shape.IsWritten := by
  obtain ⟨r, -, rfl⟩ := map_eq_ok_iff.1 h
  exact ⟨r.typeName, r.itemType, rfl⟩

theorem hasProperties_of_decode {node : Node} {properties : Entries Property}
    (h : decodeEntries Property.decode node = .ok properties) : HasProperties properties := by
  obtain ⟨hnodup, hwritten⟩ := of_decodeEntries (fun _ _ => isWritten_of_decode) h
  exact ⟨hnodup, hwritten⟩

theorem hasProperties_nil : HasProperties [] := ⟨List.nodup_nil, fun _ h => absurd h List.not_mem_nil⟩

theorem hasProperties_propertyType {node : Node} {t : PropertyType}
    (h : decodeRecord PropertyType.shape node = .ok t) : HasProperties t.properties := by
  refine of_decodeRecord (p := fun t => HasProperties t.properties) hasProperties_nil ?_ h
  refine List.forall_mem_cons.2 ⟨Json.Field.of_optional fun _ _ _ _ hrecord => hrecord, ?_⟩
  exact List.forall_mem_singleton.2 (Json.Field.of_optional fun _ _ _ hx _ => hasProperties_of_decode hx)

theorem hasProperties_resourceType {node : Node} {t : ResourceType}
    (h : decodeRecord ResourceType.shape node = .ok t) : t.attrs.keys.Nodup ∧ HasProperties t.properties := by
  refine of_decodeRecord (p := fun t => t.attrs.keys.Nodup ∧ HasProperties t.properties)
    ⟨List.nodup_nil, hasProperties_nil⟩ ?_ h
  refine List.forall_mem_cons.2 ⟨Json.Field.of_optional fun _ _ _ _ hrecord => hrecord, ?_⟩
  refine List.forall_mem_cons.2 ⟨Json.Field.of_optional fun _ _ _ hx hrecord => ⟨?_, hrecord.2⟩, ?_⟩
  · exact (of_decodeEntries (fun _ _ _ => trivial) hx).1
  · exact List.forall_mem_singleton.2 (Json.Field.of_optional fun _ _ _ hx hrecord =>
      ⟨hrecord.1, hasProperties_of_decode hx⟩)

theorem isReadable_of_decode {node : Node} {s : Specification} (h : Specification.decode node = .ok s) :
    s.IsReadable := by
  have hblank : (Specification.empty "").IsReadable :=
    ⟨List.nodup_nil, fun _ h => absurd h List.not_mem_nil, List.nodup_nil, fun _ h => absurd h List.not_mem_nil⟩
  refine of_decodeRecord hblank ?_ h
  refine List.forall_mem_cons.2 ⟨Json.Field.of_optional fun _ _ _ _ h => ⟨h.1, h.2, h.3, h.4⟩, ?_⟩
  refine List.forall_mem_cons.2 ⟨Json.Field.of_optional fun _ _ _ hx h => ?_, ?_⟩
  · obtain ⟨hnodup, htypes⟩ := of_decodeEntries (fun _ _ => hasProperties_propertyType) hx
    exact ⟨hnodup, htypes, h.3, h.4⟩
  · refine List.forall_mem_singleton.2 (Json.Field.of_optional fun _ _ _ hx h => ?_)
    obtain ⟨hnodup, htypes⟩ := of_decodeEntries (fun _ _ => hasProperties_resourceType) hx
    exact ⟨h.1, h.2, hnodup, htypes⟩

namespace Specification

/-- A specification that has been read is read again from what it writes, and writes the same again. So is a property
whose shape comes from a type and an item type, and it is the property of the fields that it writes. -/
theorem read_written :
    (∀ text s, Specification.read text = .ok s →
      ∃ again, Specification.read s.toTree.compact = .ok again ∧ again = s ∧ again.toTree = s.toTree) ∧
    (∀ typeName itemType, PropertyShape.ofType (PropertyShape.ofType typeName itemType).typeName
      (PropertyShape.ofType typeName itemType).itemType = .ofType typeName itemType) ∧
    ∀ p : Property, (∃ typeName itemType, p.shape = .ofType typeName itemType) →
      (RawProperty.ofProperty p).toProperty = p ∧ Property.read p.toTree.compact = .ok p := by
  refine ⟨fun text s h => ?_, fun typeName itemType => ?_, fun p h => ?_⟩
  · obtain ⟨node, hnode⟩ := exists_of_readWith h
    exact ⟨s, (encodes_specification (isReadable_of_decode hnode)).readWith, rfl, rfl⟩
  · have hwritten : (PropertyShape.ofType typeName itemType).IsWritten := ⟨typeName, itemType, rfl⟩
    exact hwritten.ofType_eq
  · exact ⟨RawProperty.toProperty_ofProperty h, (encodes_property h).readWith⟩

def queueText : String :=
  "\x7b\"ResourceTypes\":\x7b\"Queue\":\x7b\"Attributes\":\x7b\"Arn\":[\"String\"]\x7d,"
    ++ "\"Properties\":\x7b\"Tags\":\x7b\"Type\":\"Map\",\"ItemType\":\"Tag\"\x7d,"
    ++ "\"Keys\":[null,true,\"List\",\"\"]\x7d\x7d\x7d\x7d"

def queue : Specification :=
  (empty "").withResourceType "Queue"
    ⟨none, [("Arn", { Attribute.blank with primitiveType := some "String" })],
      [("Tags", { Property.blank with shape := .map }),
        ("Keys", { Property.blank with required := true, shape := .list none })]⟩

/-- The type of a map's items is not kept, nor is an empty one of a list's; what is kept is read again. -/
theorem read_written_queue :
    Specification.read queueText = .ok queue ∧ (∃ again, Specification.read queue.toTree.compact = .ok again ∧
      again = queue ∧ again.toTree = queue.toTree) ∧
    (RawProperty.ofProperty { Property.blank with shape := .list none }).toProperty =
      { Property.blank with shape := .list none } := by
  have hread : (Specification.read queueText).toOption = some queue := by decide +kernel
  have hqueue : Specification.read queueText = .ok queue := by
    cases hresult : Specification.read queueText with
    | ok s =>
      rw [hresult] at hread
      exact congrArg Except.ok (Option.some.inj hread)
    | error =>
      rw [hresult] at hread
      cases hread
  exact ⟨hqueue, read_written.1 _ _ hqueue, (read_written.2.2 _ ⟨"List", some "", rfl⟩).1⟩

end Specification

end CloudTemplate
