import CloudTemplate.Files
import CloudTemplate.Specification.Disagreements
import CloudTemplate.Specification.Wire
import CloudTemplate.Toml.Table
import CloudTemplate.Yaml.Reading
/-! Specifications and tables of disagreements in files. A table may be written in three formats, and its
file's extension tells which. -/
namespace CloudTemplate

inductive SourceFault where
  | notFound (path : String)
  | unsupported (path : String)
  | unreadable
  | json (fault : Json.Located)
  | yaml (fault : Yaml.Fault)
  | toml

def SourceFault.message? : SourceFault → Option String
  | .notFound path => some ("Specification not found at path: " ++ path)
  | .unsupported path => some ("Unsupported configuration format: " ++ path)
  | .json fault => some ("JSON parsing error: " ++ fault.text)
  | .unreadable | .yaml _ | .toml => none

def Files.readText (files : Files) (path : String) : Except SourceFault String :=
  match files.find? path with
  | none => .error (.notFound path)
  | some _ =>
    match files.text? path with
    | some text => .ok text
    | none => .error .unreadable

def Specification.ofJson (text : String) : Except SourceFault Specification :=
  match Specification.read text with
  | .ok spec => .ok spec
  | .error fault => .error (.json fault)

def Specification.ofFile (files : Files) (path : String) : Except SourceFault Specification := do
  Specification.ofJson (← files.readText path)

namespace Disagreements

def ofJson (text : String) : Except SourceFault Disagreements :=
  match Json.readWith decode text with
  | .ok table => .ok table
  | .error fault => .error (.json fault)

def ofYaml (text : String) : Except SourceFault Disagreements :=
  if Text.isBlankText text.toList then .ok []
  else
    match Yaml.readTable text with
    | .ok table => .ok table
    | .error fault => .error (.yaml fault)

def ofToml (text : String) : Except SourceFault Disagreements :=
  match Toml.readTable text with
  | some table => .ok table
  | none => .error .toml

def ofFile (files : Files) (path : String) : Except SourceFault Disagreements := do
  let text ← files.readText path
  match Path.kind? path with
  | some "yaml" | some "yml" => ofYaml text
  | some "json" => ofJson text
  | some "toml" => ofToml text
  | _ => .error (.unsupported path)

end Disagreements

end CloudTemplate
