import CloudTemplate.Tree
/-! Specifications: the resource types of a version, the attributes and properties that each declares,
and the property types that structured properties refer to. -/
namespace CloudTemplate

inductive PropertyShape where
  /-- A scalar, of which only the presence is judged. -/
  | primitive
  /-- A list, of scalars unless it names the type of its items. -/
  | list (itemType : Option String)
  | map
  | structured (typeName : String)
  deriving DecidableEq, Repr

namespace PropertyShape

def ofType (typeName : String) (itemType : Option String) : PropertyShape :=
  if typeName = "" then .primitive
  else if typeName = "List" then .list (itemType.filter fun item => item != "")
  else if typeName = "Map" then .map
  else .structured typeName

def typeName : PropertyShape → String
  | .primitive => ""
  | .list _ => "List"
  | .map => "Map"
  | .structured name => name

def itemType : PropertyShape → Option String
  | .list item => item
  | _ => none

def isStructured : PropertyShape → Bool
  | .structured _ => true
  | _ => false

end PropertyShape

structure Property where
  documentation : Option String
  required : Bool
  shape : PropertyShape
  primitiveType : Option String
  primitiveItemType : Option String
  duplicatesAllowed : Option Bool
  updateType : Option String
  deriving DecidableEq, Repr

def Property.blank : Property := ⟨none, false, .primitive, none, none, none, none⟩

def Property.ofPrimitive (primitiveType : String) (required : Bool) : Property :=
  { Property.blank with primitiveType := some primitiveType, required }

structure Attribute where
  primitiveType : Option String
  typeName : Option String
  primitiveItemType : Option String
  deriving DecidableEq, Repr

def Attribute.blank : Attribute := ⟨none, none, none⟩

structure PropertyType where
  documentation : Option String
  properties : Entries Property
  deriving DecidableEq, Repr

def PropertyType.blank : PropertyType := ⟨none, []⟩

structure ResourceType where
  documentation : Option String
  attrs : Entries Attribute
  properties : Entries Property
  deriving DecidableEq, Repr

def ResourceType.blank : ResourceType := ⟨none, [], []⟩

structure Specification where
  version : String
  propertyTypes : Entries PropertyType
  resourceTypes : Entries ResourceType
  deriving DecidableEq, Repr

namespace Specification

def empty (version : String) : Specification := ⟨version, [], []⟩

def withResourceType (spec : Specification) (name : String) (type : ResourceType) : Specification :=
  { spec with resourceTypes := spec.resourceTypes.insert name type }

def withPropertyType (spec : Specification) (name : String) (type : PropertyType) : Specification :=
  { spec with propertyTypes := spec.propertyTypes.insert name type }

def resourceType? (spec : Specification) (name : String) : Option ResourceType :=
  spec.resourceTypes.get? name

def qualifiedName (resourceType name : String) : String := resourceType ++ "." ++ name

def propertyType? (spec : Specification) (resourceType name : String) : Option PropertyType :=
  (spec.propertyTypes.get? (qualifiedName resourceType name)).or (spec.propertyTypes.get? name)

def hasAttribute (spec : Specification) (resourceType name : String) : Bool :=
  (spec.resourceType? resourceType).any fun type => type.attrs.contains name

end Specification

end CloudTemplate
