import CloudTemplate.Json.Fault
import CloudTemplate.Shorthand.Normalize
/-! Templates with typed resources, and the trees they are read from and written to. Sections and
attributes that a template does not know are dropped; an absent one and a null one are the same. -/
namespace CloudTemplate

inductive Policy where
  | unset
  | delete
  | retain
  | snapshot
  deriving DecidableEq, Repr

def Policy.name : Policy → String
  | .unset => ""
  | .delete => "Delete"
  | .retain => "Retain"
  | .snapshot => "Snapshot"

def Policy.all : List Policy := [.unset, .delete, .retain, .snapshot]

def Policy.ofName? (name : String) : Option Policy := Policy.all.find? fun p => p.name == name

structure Resource where
  resourceType : String
  properties : Entries Tree
  dependsOn : Option Tree
  condition : Option Tree
  metadata : Option Tree
  deletionPolicy : Option Policy
  updateReplacePolicy : Option Policy
  creationPolicy : Option Tree
  updatePolicy : Option Tree
  deriving Repr

def Resource.blank : Resource := ⟨"", [], none, none, none, none, none, none, none⟩

structure Template where
  formatVersion : Option Tree
  description : Option Tree
  metadata : Option Tree
  transform : Option Tree
  parameters : Entries Tree
  mappings : Entries Tree
  conditions : Entries Tree
  resources : Entries Resource
  outputs : Entries Tree
  deriving Repr

def Template.blank : Template := ⟨none, none, none, none, [], [], [], [], []⟩

inductive StructureCause where
  | rootNotMapping
  | resourcesNotMapping
  | resourceNotMapping (name : String)
  | keyNotString
  | keyNotFinite
  deriving DecidableEq, Repr

def StructureCause.message : StructureCause → String
  | .rootNotMapping => "template root must be a mapping"
  | .resourcesNotMapping => "Resources must be a mapping"
  | .resourceNotMapping name => "resource " ++ name ++ " must be a mapping"
  | .keyNotString => "key must be a string"
  | .keyNotFinite => "float key must be finite (got NaN or +/-inf)"

inductive TemplateFault where
  | notText (fault : Text.Utf8Fault)
  | shorthand (fault : Shorthand.LineFault)
  | json (fault : Json.Located)
  | yaml (position : Text.Position)
  | policy (resource field : String) (value : Tree)
  | structure (cause : StructureCause)
  | kind (cause : Json.Cause)

def TemplateFault.message? : TemplateFault → Option String
  | .notText fault => some ("Template is not valid UTF-8 text: " ++ fault.message)
  | .shorthand fault => some fault.message
  | .json fault =>
    let (line, column) := match fault.position with
      | some p => (p.line, p.column)
      | none => (0, 0)
    some ("Template decode error at line " ++ toString line ++ ", column " ++ toString column ++ ": "
      ++ fault.text)
  | .yaml _ => none
  | .policy resource field value =>
    some ("Resource " ++ resource ++ ": " ++ field
      ++ " must be one of \"\", Delete, Retain, Snapshot (got " ++ value.compact ++ ")")
  | .structure cause => some ("Template structure error: " ++ cause.message)
  | .kind cause => some ("JSON error: " ++ cause.text)

def Entries.swapErase {α : Type} (entries : Entries α) (key : String) : Entries α :=
  match entries.getLast? with
  | none => []
  | some last =>
    if !entries.contains key then entries
    else if last.1 == key then entries.dropLast
    else entries.dropLast.map fun e => if e.1 == key then last else e

def Tree.present : Tree → Option Tree
  | .null => none
  | value => some value

def Tree.isNullAt (entries : Entries Tree) (key : String) : Bool := (entries.get? key).any Tree.isNull

namespace Template

def checkPolicy (resource field : String) : Option Tree → Except TemplateFault Unit
  | none => .ok ()
  | some (.string s) =>
    if (Policy.ofName? s).isSome then .ok () else .error (.policy resource field (.string s))
  | some value => .error (.policy resource field value)

def checkResource (name : String) : Tree → Except TemplateFault (Entries Tree)
  | .null => .ok []
  | .object body => do
    let body : Entries Tree :=
      if Tree.isNullAt body "Properties" then Entries.swapErase body "Properties" else body
    checkPolicy name "DeletionPolicy" (body.get? "DeletionPolicy")
    checkPolicy name "UpdateReplacePolicy" (body.get? "UpdateReplacePolicy")
    return body
  | _ => .error (.structure (.resourceNotMapping name))

def checkResources : List (String × Tree) → Except TemplateFault (List (String × Entries Tree))
  | [] => .ok []
  | (name, body) :: rest => do
    let body ← checkResource name body
    let rest ← checkResources rest
    return (name, body) :: rest

def readMap (value : Tree) : Except TemplateFault (Entries Tree) :=
  match value with
  | .object entries => .ok entries
  | value => .error (.kind (.invalidType (.ofTree value) "a map"))

def readString (value : Tree) : Except TemplateFault String :=
  match value with
  | .string s => .ok s
  | value => .error (.kind (.invalidType (.ofTree value) "a string"))

def readPolicy (value : Tree) : Option Policy := value.asString?.bind Policy.ofName?

def readAttribute (resource : Resource) (key : String) (value : Tree) : Except TemplateFault Resource :=
  match key with
  | "Type" => do return { resource with resourceType := ← readString value }
  | "Properties" => do return { resource with properties := ← readMap value }
  | "DependsOn" => .ok { resource with dependsOn := value.present }
  | "Condition" => .ok { resource with condition := value.present }
  | "Metadata" => .ok { resource with metadata := value.present }
  | "DeletionPolicy" => .ok { resource with deletionPolicy := readPolicy value }
  | "UpdateReplacePolicy" => .ok { resource with updateReplacePolicy := readPolicy value }
  | "CreationPolicy" => .ok { resource with creationPolicy := value.present }
  | "UpdatePolicy" => .ok { resource with updatePolicy := value.present }
  | _ => .ok resource

def readAttributes (resource : Resource) : List (String × Tree) → Except TemplateFault Resource
  | [] => .ok resource
  | (key, value) :: rest => do
    let resource ← readAttribute resource key value
    readAttributes resource rest

def readResources : List (String × Entries Tree) → Except TemplateFault (Entries Resource)
  | [] => .ok []
  | (name, body) :: rest => do
    let resource ← readAttributes .blank body
    let rest ← readResources rest
    return (name, resource) :: rest

def readSection (resources : List (String × Entries Tree)) (template : Template) (key : String)
    (value : Tree) : Except TemplateFault Template :=
  match key with
  | "AWSTemplateFormatVersion" => .ok { template with formatVersion := value.present }
  | "Description" => .ok { template with description := value.present }
  | "Metadata" => .ok { template with metadata := value.present }
  | "Transform" => .ok { template with transform := value.present }
  | "Parameters" => do return { template with parameters := ← readMap value }
  | "Mappings" => do return { template with mappings := ← readMap value }
  | "Conditions" => do return { template with conditions := ← readMap value }
  | "Resources" => do return { template with resources := ← readResources resources }
  | "Outputs" => do return { template with outputs := ← readMap value }
  | _ => .ok template

def readSections (resources : List (String × Entries Tree)) (template : Template) :
    List (String × Tree) → Except TemplateFault Template
  | [] => .ok template
  | (key, value) :: rest => do
    let template ← readSection resources template key value
    readSections resources template rest

def mapSections : List String := ["Parameters", "Mappings", "Conditions", "Resources", "Outputs"]

def withoutNullSections (root : Entries Tree) : Entries Tree :=
  mapSections.foldl (fun root key => if Tree.isNullAt root key then root.swapErase key else root) root

/-- Reads a tree: the resources are checked one after the other, then the sections are read. -/
def ofTree (tree : Tree) : Except TemplateFault Template :=
  match tree with
  | .object root =>
    let root := withoutNullSections root
    match root.get? "Resources" with
    | none => readSections [] .blank root
    | some (.object resources) => do
      let resources ← checkResources resources
      readSections resources .blank root
    | some _ => .error (.structure .resourcesNotMapping)
  | _ => .error (.structure .rootNotMapping)

def optionalEntry (key : String) : Option Tree → List (String × Tree)
  | some value => [(key, value)]
  | none => []

def policyEntry (key : String) (policy : Option Policy) : List (String × Tree) :=
  optionalEntry key (policy.map fun p => .string p.name)

end Template

def Resource.toTree (resource : Resource) : Tree :=
  .object ([("Type", .string resource.resourceType), ("Properties", .object resource.properties)]
    ++ Template.optionalEntry "DependsOn" resource.dependsOn
    ++ Template.optionalEntry "Condition" resource.condition
    ++ Template.optionalEntry "Metadata" resource.metadata
    ++ Template.policyEntry "DeletionPolicy" resource.deletionPolicy
    ++ Template.policyEntry "UpdateReplacePolicy" resource.updateReplacePolicy
    ++ Template.optionalEntry "CreationPolicy" resource.creationPolicy
    ++ Template.optionalEntry "UpdatePolicy" resource.updatePolicy)

def Template.toTree (template : Template) : Tree :=
  .object (optionalEntry "AWSTemplateFormatVersion" template.formatVersion
    ++ optionalEntry "Description" template.description
    ++ optionalEntry "Metadata" template.metadata
    ++ optionalEntry "Transform" template.transform
    ++ [("Parameters", .object template.parameters), ("Mappings", .object template.mappings),
      ("Conditions", .object template.conditions),
      ("Resources", .object (template.resources.map fun e => (e.1, e.2.toTree))),
      ("Outputs", .object template.outputs)])

end CloudTemplate
