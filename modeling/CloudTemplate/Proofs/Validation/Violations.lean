import CloudTemplate.Validation.Structural
/-! What a specification holds against the values of a resource: each property that must be there and is
not, and each value that has not its declared shape, at any depth. A value has one list of violations,
and these are the errors that the judgement of its resource starts with. -/
namespace CloudTemplate

namespace Violations

def IsNamed (spec : Specification) (resourceType name : String) (type : PropertyType) : Prop :=
  spec.propertyTypes.get? (resourceType ++ "." ++ name) = some type ∨
    spec.propertyTypes.get? (resourceType ++ "." ++ name) = none ∧ spec.propertyTypes.get? name = some type

def IsKnown (value : Tree) : Prop := value ≠ .null ∧ Intrinsic.isCall value = false

def IsScalarOrCall (value : Tree) : Prop :=
  (∃ s, value = .string s) ∨ (∃ n, value = .number n) ∨ (∃ b, value = .bool b) ∨ Intrinsic.isCall value = true

def absenceText (parent : Option String) (name : String) : String :=
  match parent with
  | none => "Property " ++ name ++ " is required"
  | some parent => name ++ " is required in " ++ parent

mutual

inductive OfValue (spec : Specification) (resourceType : String) :
    String → PropertyShape → Tree → List String → Prop
  | null {name : String} {shape : PropertyShape} : OfValue spec resourceType name shape .null []
  | call {name : String} {shape : PropertyShape} {value : Tree} (h : Intrinsic.isCall value = true) :
      OfValue spec resourceType name shape value []
  | primitive {name : String} {value : Tree} : OfValue spec resourceType name .primitive value []
  | map {name : String} {entries : Entries Tree} : OfValue spec resourceType name .map (.object entries) []
  | notMap {name : String} {value : Tree} (hknown : IsKnown value) (h : ∀ entries, value ≠ .object entries) :
      OfValue spec resourceType name .map value [name ++ " must be a Map"]
  | scalars {name : String} {items : List Tree} (hne : items ≠ []) (h : ∀ item ∈ items, IsScalarOrCall item) :
      OfValue spec resourceType name (.list none) (.array items) []
  | notScalars {name : String} {value : Tree} (hknown : IsKnown value)
      (h : ¬ ∃ items, value = .array items ∧ items ≠ [] ∧ ∀ item ∈ items, IsScalarOrCall item) :
      OfValue spec resourceType name (.list none) value [name ++ " must be a List"]
  | notList {name item : String} {value : Tree} (hknown : IsKnown value) (h : ∀ items, value ≠ .array items) :
      OfValue spec resourceType name (.list (some item)) value [name ++ " must be a List"]
  | itemsOfNoType {name item : String} {items : List Tree} (h : ∀ type, ¬ IsNamed spec resourceType item type) :
      OfValue spec resourceType name (.list (some item)) (.array items) []
  | items {name item : String} {type : PropertyType} {items : List Tree} {errors : List String}
      (htype : IsNamed spec resourceType item type)
      (h : OfItems spec resourceType name type.properties items errors) :
      OfValue spec resourceType name (.list (some item)) (.array items) errors
  | notStructured {name typeName : String} {value : Tree} (h : ∀ entries, value ≠ .object entries) :
      OfValue spec resourceType name (.structured typeName) value []
  | structuredOfNoType {name typeName : String} {value : Tree}
      (h : ∀ type, ¬ IsNamed spec resourceType typeName type) :
      OfValue spec resourceType name (.structured typeName) value []
  | structured {name typeName : String} {type : PropertyType} {entries : Entries Tree} {errors : List String}
      (hknown : IsKnown (.object entries)) (htype : IsNamed spec resourceType typeName type)
      (h : OfEntries spec resourceType (some name) type.properties entries errors) :
      OfValue spec resourceType name (.structured typeName) (.object entries) errors

inductive OfItems (spec : Specification) (resourceType : String) :
    String → Entries Property → List Tree → List String → Prop
  | nil {name : String} {properties : Entries Property} : OfItems spec resourceType name properties [] []
  | skip {name : String} {properties : Entries Property} {item : Tree} {items : List Tree} {errors : List String}
      (h : (∀ entries, item ≠ .object entries) ∨ Intrinsic.isCall item = true)
      (hrest : OfItems spec resourceType name properties items errors) :
      OfItems spec resourceType name properties (item :: items) errors
  | object {name : String} {properties : Entries Property} {entries : Entries Tree} {items : List Tree}
      {errors others : List String} (hknown : IsKnown (.object entries))
      (h : OfEntries spec resourceType (some name) properties entries errors)
      (hrest : OfItems spec resourceType name properties items others) :
      OfItems spec resourceType name properties (.object entries :: items) (errors ++ others)

inductive OfEntries (spec : Specification) (resourceType : String) :
    Option String → Entries Property → Entries Tree → List String → Prop
  | nil {parent : Option String} {entries : Entries Tree} : OfEntries spec resourceType parent [] entries []
  | missing {parent : Option String} {name : String} {property : Property} {properties : Entries Property}
      {entries : Entries Tree} {errors : List String} (h : entries.get? name = none)
      (hrequired : property.required = true)
      (hrest : OfEntries spec resourceType parent properties entries errors) :
      OfEntries spec resourceType parent ((name, property) :: properties) entries
        (absenceText parent name :: errors)
  | absent {parent : Option String} {name : String} {property : Property} {properties : Entries Property}
      {entries : Entries Tree} {errors : List String} (h : entries.get? name = none)
      (hoptional : property.required = false)
      (hrest : OfEntries spec resourceType parent properties entries errors) :
      OfEntries spec resourceType parent ((name, property) :: properties) entries errors
  | present {parent : Option String} {name : String} {property : Property} {properties : Entries Property}
      {entries : Entries Tree} {value : Tree} {errors others : List String} (h : entries.get? name = some value)
      (hvalue : OfValue spec resourceType name property.shape value errors)
      (hrest : OfEntries spec resourceType parent properties entries others) :
      OfEntries spec resourceType parent ((name, property) :: properties) entries (errors ++ others)

end

end Violations

end CloudTemplate
