import CloudTemplate.Json.Decode
/-! The table of known disagreements between the documentation of properties and their specification. It
is keyed by a resource type, or by a resource type and a property type with a point between them, and
by a property; it lists what of the property the two disagree about, such as `Required`. -/
namespace CloudTemplate

abbrev Disagreements := Entries (Entries (List String))

namespace Disagreements

def decode : Json.Node → Except Json.Fault Disagreements :=
  Json.decodeEntries (Json.decodeEntries (Json.decodeList Json.decodeString))

def ofTree (tree : Tree) : Except Json.Cause Disagreements :=
  match decode (.ofTree tree) with
  | .ok table => .ok table
  | .error fault => .error fault.cause

def listed (table : Disagreements) (key property : String) : List String :=
  ((table.get? key).bind fun properties => properties.get? property).getD []

def holds (table : Disagreements) (key property matter : String) : Bool :=
  (table.listed key property).contains matter

def add (table : Disagreements) (key property matter : String) : Disagreements :=
  let properties := (table.get? key).getD []
  table.insert key (properties.insert property ((properties.get? property).getD [] ++ [matter]))

def sortKeys {α : Type} (entries : Entries α) : Entries α :=
  entries.mergeSort fun a b => decide (a.1 ≤ b.1)

def toTree (table : Disagreements) : Tree :=
  .object ((sortKeys table).map fun e =>
    (e.1, .object ((sortKeys e.2).map fun p => (p.1, .array (p.2.map .string)))))

end Disagreements

end CloudTemplate
