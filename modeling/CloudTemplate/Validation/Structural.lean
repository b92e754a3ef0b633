import CloudTemplate.Specification.Basic
import CloudTemplate.Specification.Disagreements
import CloudTemplate.Template.Reconcile
import CloudTemplate.Validation.Problem
import CloudTemplate.Validation.References
/-! Judging resources by a specification. Properties that have to be there must be there, and those that
are there must have their declared shape, also inside structured values. The values of functions are
not known yet and are not looked into, but their arguments are checked for their number and for the
names that they refer to. -/
namespace CloudTemplate

structure Rulebook where
  spec : Specification
  disagreements : Disagreements

structure Scope where
  resourceType : String
  /-- The key of the table of disagreements. -/
  key : String
  parent : Option String
  deriving DecidableEq, Repr

def Scope.ofResource (resourceType : String) : Scope := ⟨resourceType, resourceType, none⟩

def Scope.inside (resourceType typeName parent : String) : Scope :=
  ⟨resourceType, Specification.qualifiedName resourceType typeName, some parent⟩

theorem Entries.sizeOf_get? {entries : Entries Tree} {key : String} {value : Tree}
    (h : entries.get? key = some value) : sizeOf value < sizeOf entries := by
  obtain ⟨e, hfind, rfl⟩ := Option.map_eq_some_iff.1 h
  have hmem := List.sizeOf_lt_of_mem (List.mem_of_find?_eq_some hfind)
  cases e
  simp only [Prod.mk.sizeOf_spec] at hmem
  simp only
  omega

def isScalar : Tree → Bool
  | .string _ | .number _ | .bool _ => true
  | _ => false

def isScalarList : Tree → Bool
  | .array items => !items.isEmpty && items.all fun t => isScalar t || Intrinsic.isCall t
  | _ => false

namespace Rulebook

def disputes (book : Rulebook) (scope : Scope) (name : String) (property : Property) : List Problem :=
  if book.disagreements.holds scope.key name "Required" then [.disputed name scope.key property.required]
  else []

def absence (scope : Scope) (name : String) (property : Property) : List Problem :=
  if !property.required then []
  else
    match scope.parent with
    | none => [.missing name]
    | some parent => [.missingIn name parent]

mutual

def valueProblems (book : Rulebook) (resourceType name : String) (shape : PropertyShape) (value : Tree) :
    List Problem :=
  if value.isNull || Intrinsic.isCall value then []
  else
    match shape, value with
    | .primitive, _ => []
    | .map, .object _ => []
    | .map, _ => [.notMap name]
    | .list none, value => if isScalarList value then [] else [.notList name]
    | .list (some item), .array items =>
      match book.spec.propertyType? resourceType item with
      | none => []
      | some type => itemProblems book resourceType name item type items
    | .list (some _), _ => [.notList name]
    | .structured typeName, .object entries =>
      match book.spec.propertyType? resourceType typeName with
      | none => []
      | some type => nestedProblems book (.inside resourceType typeName name) type.properties entries
    | .structured _, _ => []
termination_by (sizeOf value, 0)

def itemProblems (book : Rulebook) (resourceType name item : String) (type : PropertyType)
    (items : List Tree) : List Problem :=
  match items with
  | [] => []
  | .object entries :: rest =>
    (if Intrinsic.isCall (.object entries) then []
      else nestedProblems book (.inside resourceType item name) type.properties entries)
      ++ itemProblems book resourceType name item type rest
  | _ :: rest => itemProblems book resourceType name item type rest
termination_by (sizeOf items, 0)

def nestedProblems (book : Rulebook) (scope : Scope) (properties : Entries Property)
    (entries : Entries Tree) : List Problem :=
  properties.flatMap fun (name, property) =>
    book.disputes scope name property ++
      match h : entries.get? name with
      | none => absence scope name property
      | some value =>
        have := Entries.sizeOf_get? h
        valueProblems book scope.resourceType name property.shape value
termination_by (sizeOf entries, 1)

end

def mappingName : Tree → Option String
  | .array (.string name :: _) => some name
  | _ => none

/-- A resource and its attribute: two items, or one text cut at its first point. Either may be
computed. -/
def attributeTarget : Tree → Option String × Option String
  | .array (resource :: name :: _) => (resource.asString?, name.asString?)
  | .array [resource] => (resource.asString?, none)
  | .string s =>
    let cs := s.toList
    if cs.contains '.' then
      (some (String.ofList (cs.takeWhile (· != '.'))),
        some (String.ofList ((cs.dropWhile (· != '.')).drop 1)))
    else (some s, none)
  | _ => (none, none)

def isStackOutput (name : String) : Bool := "Outputs.".toList.isPrefixOf name.toList

def attributeProblems (spec : Specification) (references : References) (argument : Tree) : List Problem :=
  match attributeTarget argument with
  | (none, _) => []
  | (some resource, name) =>
    match references.resourceType? resource, name with
    | none, _ => [.unknownResource resource]
    | some _, none => []
    | some resourceType, some name =>
      if isStackOutput name then []
      else if (spec.resourceType? resourceType).isSome && !spec.hasAttribute resourceType name then
        [.unknownAttribute resource name]
      else []

def callProblems (spec : Specification) (references : References) (f : Intrinsic) (argument : Tree) :
    List Problem :=
  match f with
  | .findInMap =>
    match mappingName argument with
    | some name => if references.hasMapping name then [] else [.unknownMapping name]
    | none => []
  | .ref =>
    match argument with
    | .string name => if references.isReferable name then [] else [.unknownTarget name]
    | _ => []
  | .getAtt => attributeProblems spec references argument
  | _ => []

def argumentProblems (f : Intrinsic) (argument : Tree) : List Problem :=
  match f.arityFault? argument with
  | some fault => [.arguments f fault]
  | none => []

def ownProblems (spec : Specification) (references : References) (tree : Tree) : List Problem :=
  match Intrinsic.detect? tree with
  | some (f, argument) => argumentProblems f argument ++ callProblems spec references f argument
  | none => []

mutual

def referenceProblems (spec : Specification) (references : References) : Tree → List Problem
  | .array items => referenceProblemsOfItems spec references items
  | .object entries =>
    ownProblems spec references (.object entries) ++ referenceProblemsOfEntries spec references entries
  | _ => []
termination_by structural t => t

def referenceProblemsOfItems (spec : Specification) (references : References) : List Tree → List Problem
  | [] => []
  | t :: rest => referenceProblems spec references t ++ referenceProblemsOfItems spec references rest
termination_by structural ts => ts

def referenceProblemsOfEntries (spec : Specification) (references : References) :
    List (String × Tree) → List Problem
  | [] => []
  | (_, t) :: rest => referenceProblems spec references t ++ referenceProblemsOfEntries spec references rest
termination_by structural es => es

end

def live {α : Type} (dead : DeadEntries) (resource : String) (entries : Entries α) : Entries α :=
  entries.filter fun e => !dead.isDeadProperty resource e.1

/-- All problems of a resource: first those of its properties in the order of the specification, then
those of the calls in its values. -/
def resourceProblems (book : Rulebook) (dead : DeadEntries) (references : References) (name : String)
    (resource : Resource) : List Problem :=
  match book.spec.resourceType? resource.resourceType with
  | none => [.unknownType]
  | some type =>
    book.nestedProblems (.ofResource resource.resourceType) (live dead name type.properties)
        resource.properties
      ++ (live dead name resource.properties).flatMap fun e => referenceProblems book.spec references e.2

def judge (book : Rulebook) (dead : DeadEntries) (references : References) (name : String)
    (resource : Resource) : ResourceValidation :=
  ⟨name, resource.resourceType,
    (book.resourceProblems dead references name resource).map Problem.diagnostic⟩

def judgeTemplate (book : Rulebook) (template : Template) (dead : DeadEntries) :
    List ResourceValidation :=
  (template.resources.filter fun e => !dead.isDeadResource e.1).map fun e =>
    book.judge dead (.of template) e.1 e.2

end Rulebook

end CloudTemplate
