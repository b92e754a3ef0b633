import CloudTemplate.Files
import CloudTemplate.Json.Decode
/-! The two notations of templates. A file's extension tells which one it is written in, and where it
does not, the content does: whatever can be passed over as JSON is JSON. -/
namespace CloudTemplate

inductive Format where
  | json
  | yaml
  deriving DecidableEq, Repr

namespace Format

def name : Format → String
  | .json => "json"
  | .yaml => "yaml"

def choices : List (String × Format) := [("json", .json), ("yaml", .yaml)]

def ofTree (tree : Tree) : Except Json.Cause Format :=
  match Json.decodeChoice choices (.ofTree tree) with
  | .ok format => .ok format
  | .error fault => .error fault.cause

def ofPath? (path : String) : Option Format :=
  match Path.kind? path with
  | some "json" => some .json
  | some "yaml" => some .yaml
  | some "yml" => some .yaml
  | _ => none

def sniff (source : List UInt8) : Format := if Json.isNotation source then .json else .yaml

def detect (path : Option String) (source : List UInt8) : Format :=
  (path.bind ofPath?).getD (sniff source)

end Format

end CloudTemplate
