import CloudTemplate.Validation.Cidr
/-! Rules for single resource types, and the registry that holds one rule for each type. -/
namespace CloudTemplate

structure Rule where
  resourceType : String
  check : String → Resource → List Diagnostic

def Rule.cidr (resourceType property : String) : Rule :=
  ⟨resourceType, fun _ resource => Cidr.check property resource⟩

def Rule.vpc : Rule := .cidr "AWS::EC2::VPC" "CidrBlock"

def Rule.subnet : Rule := .cidr "AWS::EC2::Subnet" "CidrBlock"

abbrev Registry := Entries Rule

namespace Registry

def empty : Registry := []

/-- Registers a rule for its type, in place of one that was registered before. -/
def register (registry : Registry) (rule : Rule) : Registry := registry.insert rule.resourceType rule

def builtin : Registry := (empty.register .vpc).register .subnet

def diagnostics (registry : Registry) (name : String) (resource : Resource) : List Diagnostic :=
  match registry.get? resource.resourceType with
  | some rule => rule.check name resource
  | none => []

def run (registry : Registry) (name : String) (resource : Resource) (v : ResourceValidation) :
    ResourceValidation :=
  v.add (registry.diagnostics name resource)

def inspect (registry : Registry) : String :=
  "CustomValidatorRegistry \x7b validators: [" ++ ", ".intercalate (registry.keys.map Text.shown) ++ "] \x7d"

end Registry

end CloudTemplate
