import CloudTemplate.Intrinsic
import CloudTemplate.Validation.Report
/-! What the specification and the template's own names can hold against a resource. -/
namespace CloudTemplate

inductive Problem where
  | unknownType
  | missing (property : String)
  | missingIn (property parent : String)
  | notMap (property : String)
  | notList (property : String)
  | disputed (property key : String) (required : Bool)
  | arguments (f : Intrinsic) (fault : Intrinsic.ArityFault)
  | unknownMapping (name : String)
  | unknownTarget (name : String)
  | unknownResource (name : String)
  | unknownAttribute (resource name : String)
  deriving DecidableEq, Repr

namespace Problem

/-- Only a disagreement about the specification itself is a mere warning. -/
def severity : Problem → Severity
  | .disputed .. => .warning
  | _ => .error

def message : Problem → String
  | .unknownType => "Type needs to be specified"
  | .missing property => "Property " ++ property ++ " is required"
  | .missingIn property parent => property ++ " is required in " ++ parent
  | .notMap property => property ++ " must be a Map"
  | .notList property => property ++ " must be a List"
  | .disputed property key required =>
    "Property " ++ property ++ " of " ++ key ++ " is " ++ (if required then "required" else "optional")
      ++ " in the specification, but the documentation disagrees"
  | .arguments f fault => fault.message f
  | .unknownMapping name => "Mapping " ++ name ++ " referenced by Fn::FindInMap does not exist"
  | .unknownTarget name => "Ref " ++ name ++ " does not name a parameter or resource"
  | .unknownResource name => "Fn::GetAtt target " ++ name ++ " does not name a resource"
  | .unknownAttribute resource name => resource ++ " has no attribute " ++ name ++ " for Fn::GetAtt"

def diagnostic (p : Problem) : Diagnostic := ⟨p.severity, p.message⟩

end Problem

end CloudTemplate
