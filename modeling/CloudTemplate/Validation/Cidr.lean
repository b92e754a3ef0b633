import CloudTemplate.Intrinsic
import CloudTemplate.Number.Numeral
import CloudTemplate.Template.Basic
import CloudTemplate.Validation.Report
/-! Blocks of network addresses: four numbers of at most 255 with points between them, a slash and a
length of at most 32. -/
namespace CloudTemplate.Cidr

def takeNumber (width limit : Nat) (cs : List Char) : Option (List Char) :=
  let run := cs.takeWhile Char.isDigit
  if !run.isEmpty && run.length ≤ width && Number.ofDigits run ≤ limit then some (cs.drop run.length)
  else none

def takeChar (c : Char) : List Char → Option (List Char)
  | [] => none
  | d :: cs => if d = c then some cs else none

def takeBlock (cs : List Char) : Option (List Char) := do
  let cs ← takeNumber 3 255 cs
  let cs ← takeChar '.' cs
  let cs ← takeNumber 3 255 cs
  let cs ← takeChar '.' cs
  let cs ← takeNumber 3 255 cs
  let cs ← takeChar '.' cs
  let cs ← takeNumber 3 255 cs
  let cs ← takeChar '/' cs
  takeNumber 2 32 cs

def isBlock (text : String) : Bool := takeBlock text.toList == some []

def refusal (property shown : String) : Diagnostic :=
  ⟨.error, property ++ " " ++ shown ++ " is not a valid CIDR block"⟩

def check (property : String) (resource : Resource) : List Diagnostic :=
  match resource.properties.get? property with
  | none | some .null => []
  | some (.string s) => if isBlock s then [] else [refusal property s]
  | some value => if Intrinsic.isCall value then [] else [refusal property value.compact]

end CloudTemplate.Cidr
