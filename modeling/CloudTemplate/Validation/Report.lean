import CloudTemplate.Json.Decode
/-! Reports of a validation: what was said about each resource, in order, and notices about the template
as a whole. Only errors make a report invalid. -/
namespace CloudTemplate

inductive Severity where
  | warning
  | error
  deriving DecidableEq, Repr

def Severity.name : Severity → String
  | .warning => "warning"
  | .error => "error"

structure Diagnostic where
  severity : Severity
  message : String
  deriving DecidableEq, Repr

structure ResourceValidation where
  resource : String
  resourceType : String
  diagnostics : List Diagnostic
  deriving DecidableEq, Repr

namespace ResourceValidation

def add (v : ResourceValidation) (diagnostics : List Diagnostic) : ResourceValidation :=
  { v with diagnostics := v.diagnostics ++ diagnostics }

def messages (v : ResourceValidation) (severity : Severity) : List String :=
  (v.diagnostics.filter fun d => d.severity == severity).map Diagnostic.message

def errors (v : ResourceValidation) : List String := v.messages .error

def warnings (v : ResourceValidation) : List String := v.messages .warning

def isValid (v : ResourceValidation) : Bool := v.errors.isEmpty

theorem messages_add (v : ResourceValidation) (diagnostics : List Diagnostic) (severity : Severity) :
    (v.add diagnostics).messages severity =
      v.messages severity ++ (diagnostics.filter fun d => d.severity == severity).map Diagnostic.message := by
  rw [messages, messages, add, List.filter_append, List.map_append]

end ResourceValidation

structure Summary where
  resources : Nat
  invalidResources : Nat
  errors : Nat
  warnings : Nat
  notices : Nat
  deriving DecidableEq, Repr

structure Report where
  resources : List ResourceValidation
  notices : List String
  deriving DecidableEq, Repr

namespace Report

def empty : Report := ⟨[], []⟩

def push (report : Report) (v : ResourceValidation) : Report :=
  { report with resources := report.resources ++ [v] }

def addToLast (report : Report) (d : Diagnostic) : Report :=
  match report.resources.getLast? with
  | none => report
  | some v => { report with resources := report.resources.dropLast ++ [v.add [d]] }

def addNotice (report : Report) (notice : String) : Report :=
  { report with notices := report.notices ++ [notice] }

def isValid (report : Report) : Bool := report.resources.all ResourceValidation.isValid

def find? (report : Report) (name : String) : Option ResourceValidation :=
  report.resources.find? fun v => v.resource == name

def summary (report : Report) : Summary where
  resources := report.resources.length
  invalidResources := report.resources.countP fun v => !v.isValid
  errors := (report.resources.flatMap ResourceValidation.errors).length
  warnings := (report.resources.flatMap ResourceValidation.warnings).length
  notices := report.notices.length

def diagnosticLine (d : Diagnostic) : String :=
  let marker := match d.severity with
    | .error => "❌"
    | .warning => "⚠️"
  "     " ++ marker ++ " " ++ d.message ++ "\n"

def resourceLines (v : ResourceValidation) : String :=
  let marker := if !v.isValid then "❌" else if !v.warnings.isEmpty then "⚠️" else "✅"
  "  " ++ marker ++ " " ++ v.resource ++ " (" ++ v.resourceType ++ ")\n"
    ++ String.join (v.diagnostics.map diagnosticLine)

def noticeLines (notices : List String) : String :=
  if notices.isEmpty then "" else
    "\nNotices:\n" ++ String.join (notices.map fun notice => "  ℹ️ " ++ notice ++ "\n")

def summaryLine (s : Summary) : String :=
  "\nSummary: " ++ toString (s.resources - s.invalidResources) ++ "/" ++ toString s.resources
    ++ " resources valid, " ++ toString s.errors ++ " errors, " ++ toString s.warnings ++ " warnings"

def render (report : Report) : String :=
  "Status: " ++ (if report.isValid then "✅ VALID" else "❌ INVALID") ++ "\n"
    ++ noticeLines report.notices
    ++ "\nResources:\n" ++ String.join (report.resources.map resourceLines)
    ++ summaryLine report.summary

end Report

def Severity.choices : List (String × Severity) := [("warning", .warning), ("error", .error)]

def Diagnostic.shape : Json.Shape Diagnostic :=
  ⟨"Diagnostic",
    [.mandatory "severity" (Json.decodeChoice Severity.choices) fun x d => { d with severity := x },
      .mandatory "message" Json.decodeString fun x d => { d with message := x }],
    ⟨.warning, ""⟩⟩

def ResourceValidation.shape : Json.Shape ResourceValidation :=
  ⟨"ResourceValidation",
    [.mandatory "resource" Json.decodeString fun x v => { v with resource := x },
      .mandatory "resource_type" Json.decodeString fun x v => { v with resourceType := x },
      .mandatory "diagnostics" (Json.decodeList (Json.decodeRecord Diagnostic.shape))
        fun x v => { v with diagnostics := x }],
    ⟨"", "", []⟩⟩

def ResourceValidation.ofTree (tree : Tree) : Except Json.Cause ResourceValidation :=
  match Json.decodeRecord shape (.ofTree tree) with
  | .ok v => .ok v
  | .error fault => .error fault.cause

end CloudTemplate
