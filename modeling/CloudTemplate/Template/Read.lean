import CloudTemplate.Template.Format
import CloudTemplate.Template.Reconcile
import CloudTemplate.Template.Basic
import CloudTemplate.Yaml.Reading
/-! Reading a template from its source. Shorthand in YAML is expanded first; then the text is decoded, stray
nulls are taken out of the tree, and the tree is read as a template. -/
namespace CloudTemplate

/-- Where a fault in a YAML text is shown; one that concerns the text as a whole is shown at its start. -/
def Yaml.Fault.position (text : String) (fault : Yaml.Fault) : Text.Position :=
  match fault.place with
  | some place => Text.position text place
  | none => ⟨1, 1⟩

def StructureCause.ofKey : Yaml.KeyFault → StructureCause
  | .noText => .keyNotString
  | .notFinite => .keyNotFinite

def Format.decode (format : Format) (text : String) : Except TemplateFault Tree :=
  match format with
  | .json =>
    match Json.readTree text with
    | .ok tree => .ok tree
    | .error fault => .error (.json fault)
  | .yaml =>
    match Yaml.readValue text with
    | .error fault => .error (.yaml (fault.position text))
    | .ok value =>
      match value.toTree with
      | .ok tree => .ok tree
      | .error fault => .error (.structure (.ofKey fault))

structure Parsed where
  format : Format
  template : Template
  tree : Tree
  reconciliation : Reconciliation

namespace Parsed

def textOf (source : List UInt8) : Except TemplateFault String :=
  match Text.readUtf8 source with
  | .ok text => .ok (String.ofList text)
  | .error fault => .error (.notText fault)

def plainText (options : Shorthand.Options) (format : Format) (source : List UInt8) :
    Except TemplateFault String := do
  let text ← textOf source
  match format with
  | .json => return text
  | .yaml =>
    match Shorthand.normalize options text with
    | .ok text => return text
    | .error fault => .error (.shorthand fault)

def read (options : Shorthand.Options) (format : Format) (source : List UInt8) :
    Except TemplateFault Parsed := do
  let text ← plainText options format source
  let (tree, reconciliation) := reconcile (← format.decode text)
  return ⟨format, ← Template.ofTree tree, tree, reconciliation⟩

end Parsed

end CloudTemplate
