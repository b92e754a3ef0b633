import CloudTemplate.Json.Node
/-! Reading the values of a node that have a known kind. A reader goes through the node in the order of
the text, so it reports the first thing that is wrong there, be it the notation or the kind of a value. -/
namespace CloudTemplate.Json

/-- A value of another kind than the expected one. Words and digits are reported at their end, arrays
and objects at their start; a value that is itself broken is reported as that. -/
def wrongKind (expected : String) : Node → Fault
  | .null _ stop => ⟨.invalidType .null expected, stop⟩
  | .bool b _ stop => ⟨.invalidType (.bool b) expected, stop⟩
  | .number (.ok n) _ stop => ⟨.invalidType (.ofNumber n) expected, stop⟩
  | .number (.error fault) _ _ => fault
  | .string (.ok s) _ stop => ⟨.invalidType (.string s) expected, stop⟩
  | .string (.error fault) _ _ => fault
  | .array start _ _ => ⟨.invalidType .sequence expected, start.map Cursor.offset⟩
  | .object start _ _ => ⟨.invalidType .map expected, start.map Cursor.offset⟩
  | .broken _ b => b.strict

def decodeString : Node → Except Fault String
  | .string s _ _ => s
  | n => .error (wrongKind "a string" n)

def decodeBool : Node → Except Fault Bool
  | .bool b _ _ => .ok b
  | n => .error (wrongKind "a boolean" n)

def decodeOption {α : Type} (decode : Node → Except Fault α) : Node → Except Fault (Option α)
  | .null _ _ => .ok none
  | n => (decode n).map some

def decodeAll {α : Type} (decode : Node → Except Fault α) : List Node → Except Fault (List α)
  | [] => .ok []
  | n :: rest => do
    let x ← decode n
    let xs ← decodeAll decode rest
    return x :: xs

def decodeList {α : Type} (decode : Node → Except Fault α) : Node → Except Fault (List α)
  | .array _ items stop => do
    let xs ← decodeAll decode items
    let _ ← strictStop stop
    return xs
  | n => .error (wrongKind "a sequence" n)

def decodeEntriesFrom {α : Type} (decode : Node → Except Fault α) (seen : Entries α) :
    List (Label × Node) → Except Fault (Entries α)
  | [] => .ok seen
  | (label, n) :: rest => do
    let name ← label.name
    let x ← decode n
    decodeEntriesFrom decode (seen.insert name x) rest

def decodeEntries {α : Type} (decode : Node → Except Fault α) : Node → Except Fault (Entries α)
  | .object _ entries stop => do
    let xs ← decodeEntriesFrom decode [] entries
    let _ ← strictStop stop
    return xs
  | n => .error (wrongKind "a map" n)

structure Field (σ : Type) where
  name : String
  required : Bool
  decode : Node → σ → Except Fault σ

structure Shape (σ : Type) where
  name : String
  fields : List (Field σ)
  blank : σ

def Field.optional {σ α : Type} (name : String) (decode : Node → Except Fault α) (put : α → σ → σ) :
    Field σ :=
  ⟨name, false, fun n record => (decode n).map fun x => put x record⟩

def Field.mandatory {σ α : Type} (name : String) (decode : Node → Except Fault α) (put : α → σ → σ) :
    Field σ :=
  ⟨name, true, fun n record => (decode n).map fun x => put x record⟩

def readNamed {σ : Type} (fields : List (Field σ)) (seen : List String) (record : σ) :
    List (Label × Node) → Except Fault (List String × σ)
  | [] => .ok (seen, record)
  | (label, n) :: rest => do
    let name ← label.name
    match fields.find? fun field => field.name == name with
    | none => n.pass; readNamed fields seen record rest
    | some field =>
      if seen.contains name then .error ⟨.duplicateField name, label.after⟩
      else
        let record ← field.decode n record
        readNamed fields (name :: seen) record rest

def countText (n : Nat) : String := if n = 1 then "1 element" else toString n ++ " elements"

def surplusCause : Cause → Cause
  | .expectedListEnd => .trailingCharacters
  | .endInValue => .trailingCharacters
  | cause => cause

def surplus (all : List Node) (next : Node) : Fault :=
  match next.place with
  | some place => ⟨.trailingCharacters, some (place + 1)⟩
  | none => ⟨.invalidLength all.length "fewer elements in array", none⟩

def readOrdered {σ : Type} (shape : Shape σ) (all : List Node) (stop : Except Break (Option Nat))
    (record : σ) : List (Field σ) → List Node → Except Fault σ
  | [], [] =>
    match stop with
    | .ok _ => .ok record
    | .error b => .error { b.strict with cause := surplusCause b.strict.cause }
  | [], next :: _ => .error (surplus all next)
  | field :: fields, [] =>
    match stop with
    | .error b => .error b.strict
    | .ok place =>
      if field.required then
        .error ⟨.invalidLength all.length
          ("struct " ++ shape.name ++ " with " ++ countText shape.fields.length), place⟩
      else readOrdered shape all stop record fields []
  | field :: fields, n :: rest => do
    let record ← field.decode n record
    readOrdered shape all stop record fields rest

def decodeRecord {σ : Type} (shape : Shape σ) : Node → Except Fault σ
  | .array _ items stop => readOrdered shape items stop shape.blank shape.fields items
  | .object _ entries stop => do
    let (seen, record) ← readNamed shape.fields [] shape.blank entries
    let place ← strictStop stop
    match shape.fields.find? fun field => field.required && !seen.contains field.name with
    | some field => .error ⟨.missingField field.name, place⟩
    | none => return record
  | n => .error (wrongKind ("struct " ++ shape.name) n)

def decodeName {α : Type} (choices : List (String × α)) (stop : Option Nat) (name : String) :
    Except Fault α :=
  match choices.find? fun choice => choice.1 == name with
  | some choice => .ok choice.2
  | none => .error ⟨.unknownVariant name (choices.map Prod.fst), stop⟩

def readChoiceName {α : Type} (choices : List (String × α)) (c : Cursor) : Except Fault (α × Cursor) :=
  match readNext c with
  | (.string s _ stop, some c) => do return (← decodeName choices stop (← s), c)
  | (n, _) => .error (wrongKind "variant identifier" n)

def readColon (c : Cursor) : Except Fault Cursor :=
  let c := c.skipBlanks
  match c.rest with
  | ':' :: _ => .ok c.advance
  | [] => .error (c.faultHere .endInObject)
  | _ => .error (c.faultAhead .expectedColon)

def readNull (c : Cursor) : Except Fault Cursor :=
  match readNext c with
  | (.null _ _, some c) => .ok c
  | (n, _) => .error (wrongKind "unit" n)

def readBrace (c : Cursor) : Except Fault Unit :=
  let c := c.skipBlanks
  match c.rest with
  | '\x7d' :: _ => .ok ()
  | [] => .error (c.faultHere .endInObject)
  | _ => .error (c.faultHere .expectedValue)

def readChoice {α : Type} (choices : List (String × α)) (c : Cursor) : Except Fault α :=
  match c.rest with
  | '"' :: _ => do
    let (name, c) ← readString true c.advance
    decodeName choices (some c.offset) name
  | '\x7b' :: _ => do
    let (x, c) ← readChoiceName choices c.advance
    let c ← readColon c
    let c ← readNull c
    readBrace c
    return x
  | [] => .error (c.faultHere .endInValue)
  | _ => .error (c.faultAhead .expectedValue)

def chooseFrom {α : Type} (choices : List (String × α)) : Node → Except Fault α
  | .string s _ _ => do decodeName choices none (← s)
  | .object _ [(label, n)] _ => do
    let x ← decodeName choices none (← label.name)
    match n with
    | .null _ _ => return x
    | n => .error (wrongKind "unit" n)
  | .object _ _ _ => .error ⟨.invalidValue .map "map with a single key", none⟩
  | n => .error (wrongKind "string or map" n)

/-- One of some choices. A text is read again from where the choice starts, since no more of it counts
than the choice takes. -/
def decodeChoice {α : Type} (choices : List (String × α)) (n : Node) : Except Fault α :=
  match n.start with
  | some c => readChoice choices c
  | none => chooseFrom choices n

end CloudTemplate.Json
