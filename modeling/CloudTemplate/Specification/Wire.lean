import CloudTemplate.Specification.Basic
import CloudTemplate.Json.Decode
/-! Specifications as JSON. A property's shape is written as its type and, for a list, the type of its
items; fields that hold nothing are left out. -/
namespace CloudTemplate

structure RawProperty where
  documentation : Option String
  required : Bool
  typeName : String
  itemType : Option String
  primitiveType : Option String
  primitiveItemType : Option String
  duplicatesAllowed : Option Bool
  updateType : Option String
  deriving DecidableEq, Repr

namespace RawProperty

def ofProperty (p : Property) : RawProperty :=
  ⟨p.documentation, p.required, p.shape.typeName, p.shape.itemType, p.primitiveType, p.primitiveItemType,
    p.duplicatesAllowed, p.updateType⟩

def toProperty (r : RawProperty) : Property :=
  ⟨r.documentation, r.required, .ofType r.typeName r.itemType, r.primitiveType, r.primitiveItemType,
    r.duplicatesAllowed, r.updateType⟩

def decodeName? : Json.Node → Except Json.Fault (Option String) := Json.decodeOption Json.decodeString

def shape : Json.Shape RawProperty :=
  ⟨"RawProperty",
    [.optional "Documentation" decodeName? fun x r => { r with documentation := x },
      .optional "Required" Json.decodeBool fun x r => { r with required := x },
      .optional "Type" Json.decodeString fun x r => { r with typeName := x },
      .optional "ItemType" decodeName? fun x r => { r with itemType := x },
      .optional "PrimitiveType" decodeName? fun x r => { r with primitiveType := x },
      .optional "PrimitiveItemType" decodeName? fun x r => { r with primitiveItemType := x },
      .optional "DuplicatesAllowed" (Json.decodeOption Json.decodeBool)
        fun x r => { r with duplicatesAllowed := x },
      .optional "UpdateType" decodeName? fun x r => { r with updateType := x }],
    ⟨none, false, "", none, none, none, none, none⟩⟩

end RawProperty

def optionalText (key : String) : Option String → List (String × Tree)
  | some s => [(key, .string s)]
  | none => []

def optionalFlag (key : String) : Option Bool → List (String × Tree)
  | some b => [(key, .bool b)]
  | none => []

def RawProperty.toTree (r : RawProperty) : Tree :=
  .object (optionalText "Documentation" r.documentation ++ [("Required", .bool r.required)]
    ++ (if r.typeName = "" then [] else [("Type", .string r.typeName)])
    ++ optionalText "ItemType" r.itemType
    ++ optionalText "PrimitiveType" r.primitiveType
    ++ optionalText "PrimitiveItemType" r.primitiveItemType
    ++ optionalFlag "DuplicatesAllowed" r.duplicatesAllowed
    ++ optionalText "UpdateType" r.updateType)

def Property.decode (node : Json.Node) : Except Json.Fault Property :=
  (Json.decodeRecord RawProperty.shape node).map RawProperty.toProperty

def Property.toTree (p : Property) : Tree := (RawProperty.ofProperty p).toTree

def Property.read (text : String) : Except Json.Located Property := Json.readWith Property.decode text

def Attribute.shape : Json.Shape Attribute :=
  ⟨"Attribute",
    [.optional "PrimitiveType" RawProperty.decodeName? fun x a => { a with primitiveType := x },
      .optional "Type" RawProperty.decodeName? fun x a => { a with typeName := x },
      .optional "PrimitiveItemType" RawProperty.decodeName? fun x a => { a with primitiveItemType := x }],
    .blank⟩

def Attribute.toTree (a : Attribute) : Tree :=
  .object (optionalText "PrimitiveType" a.primitiveType ++ optionalText "Type" a.typeName
    ++ optionalText "PrimitiveItemType" a.primitiveItemType)

def treeOfEntries {α : Type} (encode : α → Tree) (entries : Entries α) : Tree :=
  .object (entries.map fun e => (e.1, encode e.2))

def PropertyType.shape : Json.Shape PropertyType :=
  ⟨"PropertyType",
    [.optional "Documentation" RawProperty.decodeName? fun x t => { t with documentation := x },
      .optional "Properties" (Json.decodeEntries Property.decode) fun x t => { t with properties := x }],
    .blank⟩

def PropertyType.toTree (t : PropertyType) : Tree :=
  .object (optionalText "Documentation" t.documentation
    ++ [("Properties", treeOfEntries Property.toTree t.properties)])

def ResourceType.shape : Json.Shape ResourceType :=
  ⟨"ResourceType",
    [.optional "Documentation" RawProperty.decodeName? fun x t => { t with documentation := x },
      .optional "Attributes" (Json.decodeEntries (Json.decodeRecord Attribute.shape))
        fun x t => { t with attrs := x },
      .optional "Properties" (Json.decodeEntries Property.decode) fun x t => { t with properties := x }],
    .blank⟩

def ResourceType.toTree (t : ResourceType) : Tree :=
  .object (optionalText "Documentation" t.documentation
    ++ [("Attributes", treeOfEntries Attribute.toTree t.attrs),
      ("Properties", treeOfEntries Property.toTree t.properties)])

namespace Specification

def shape : Json.Shape Specification :=
  ⟨"Specification",
    [.optional "ResourceSpecificationVersion" Json.decodeString fun x s => { s with version := x },
      .optional "PropertyTypes" (Json.decodeEntries (Json.decodeRecord PropertyType.shape))
        fun x s => { s with propertyTypes := x },
      .optional "ResourceTypes" (Json.decodeEntries (Json.decodeRecord ResourceType.shape))
        fun x s => { s with resourceTypes := x }],
    .empty ""⟩

def decode : Json.Node → Except Json.Fault Specification := Json.decodeRecord shape

def read (text : String) : Except Json.Located Specification := Json.readWith decode text

def toTree (spec : Specification) : Tree :=
  .object [("ResourceSpecificationVersion", .string spec.version),
    ("PropertyTypes", treeOfEntries PropertyType.toTree spec.propertyTypes),
    ("ResourceTypes", treeOfEntries ResourceType.toTree spec.resourceTypes)]

end Specification

end CloudTemplate
