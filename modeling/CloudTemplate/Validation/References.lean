import CloudTemplate.Template.Basic
/-! The names that a template declares, for the functions that refer to them. -/
namespace CloudTemplate

structure References where
  parameters : List String
  /-- The resources with their types. -/
  resources : Entries String
  mappings : List String
  deriving DecidableEq, Repr

namespace References

def of (template : Template) : References :=
  ⟨template.parameters.keys, template.resources.map fun e => (e.1, e.2.resourceType),
    template.mappings.keys⟩

def isPseudo (name : String) : Bool := "AWS::".toList.isPrefixOf name.toList

def isReferable (references : References) (name : String) : Bool :=
  isPseudo name || references.parameters.contains name || references.resources.contains name

def resourceType? (references : References) (name : String) : Option String :=
  references.resources.get? name

def hasMapping (references : References) (name : String) : Bool := references.mappings.contains name

end References

end CloudTemplate
