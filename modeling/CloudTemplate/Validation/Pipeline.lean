import CloudTemplate.Specification.Cache
import CloudTemplate.Template.Read
import CloudTemplate.Validation.Rule
import CloudTemplate.Validation.Structural
/-! Validating a template from its source to its report. The rules for resource types run after the
specification has been applied, and see a resource without its dead properties. -/
namespace CloudTemplate

structure Settings where
  options : Shorthand.Options
  /-- The format of sources, unless it is to be found out. -/
  format : Option Format
  disagreements : Disagreements
  builtinRules : Bool

def Settings.standard : Settings := ⟨.standard, none, [], true⟩

inductive ValidationFault where
  | template (fault : TemplateFault)
  | specification (fault : SourceFault)
  | unreadable

def ValidationFault.message? : ValidationFault → Option String
  | .template fault => fault.message?.map ("Template error: " ++ ·)
  | .specification fault => fault.message?.map ("Specification error: " ++ ·)
  | .unreadable => none

structure Validator where
  spec : Specification
  settings : Settings
  rules : Registry

namespace Validator

def make (spec : Specification) (settings : Settings) : Validator :=
  ⟨spec, settings, if settings.builtinRules then .builtin else .empty⟩

def ofCache (cache : Cache) (files : Files) (region version : String) (settings : Settings) :
    Cache × Except ValidationFault Validator :=
  let (cache, held) := cache.get files region version
  (cache, match held with
    | .ok held => .ok (make held.spec settings)
    | .error fault => .error (.specification fault))

def register (v : Validator) (rule : Rule) : Validator := { v with rules := v.rules.register rule }

def book (v : Validator) : Rulebook := ⟨v.spec, v.settings.disagreements⟩

def liveResource (dead : DeadEntries) (name : String) (resource : Resource) : Resource :=
  { resource with properties := Rulebook.live dead name resource.properties }

def applyRules (v : Validator) (template : Template) (dead : DeadEntries) (judged : ResourceValidation) :
    ResourceValidation :=
  match template.resources.get? judged.resource with
  | some resource => v.rules.run judged.resource (liveResource dead judged.resource resource) judged
  | none => judged

def validateParsed (v : Validator) (parsed : Parsed) : Report :=
  let dead := parsed.reconciliation.dead
  ⟨(v.book.judgeTemplate parsed.template dead).map (v.applyRules parsed.template dead),
    parsed.reconciliation.notice.toList⟩

def validate (v : Validator) (source : List UInt8) (format : Option Format) :
    Except ValidationFault Report :=
  let format := (format.or v.settings.format).getD (Format.sniff source)
  match Parsed.read v.settings.options format source with
  | .ok parsed => .ok (v.validateParsed parsed)
  | .error fault => .error (.template fault)

def validateFile (v : Validator) (files : Files) (path : String) : Except ValidationFault Report :=
  match files.find? path with
  | some (.file source) => v.validate source (some (v.settings.format.getD (Format.detect path source)))
  | _ => .error .unreadable

end Validator

end CloudTemplate
