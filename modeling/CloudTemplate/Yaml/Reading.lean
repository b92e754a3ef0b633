import CloudTemplate.Yaml.Meaning
/-! Reading a document as a value, or as a table of texts of a known form. An alias is read as the node
that it refers to, over again each time; how often that may happen and how deeply nodes may stand
inside one another is limited. -/
namespace CloudTemplate.Yaml

structure Script where
  events : List (Event Nat)
  targets : List (Nat × List (Event Nat))
  fault : Option Fault
  followed : Bool

namespace Script

def renameHappening (target : Nat) : Happening String → Happening Nat
  | .scalar text plain tag => .scalar text plain tag
  | .alias _ => .alias target
  | .sequenceStart tag => .sequenceStart tag
  | .sequenceEnd => .sequenceEnd
  | .mappingStart tag => .mappingStart tag
  | .mappingEnd => .mappingEnd

/-- Numbers anchors and aliases. The number of an anchor is how many names stand before it; events end
at an alias whose name is unknown. -/
def number (names : Entries Nat) (fault : Option Fault) :
    List (Event String) → List (Event Nat) × Option Fault
  | [] => ([], fault)
  | e :: rest =>
    let anchor := e.anchor.map fun _ => names.length
    let names' := match e.anchor with
      | some name => names.insert name names.length
      | none => names
    let go (target : Nat) :=
      let (events, fault) := number names' fault rest
      ((⟨renameHappening target e.happening, anchor, e.place⟩ : Event Nat) :: events, fault)
    match e.happening with
    | .alias name =>
      match names.get? name with
      | some target => go target
      | none => ([], some ⟨.unknownAnchor, some e.place⟩)
    | _ => go 0

def targetsOf : List (Event Nat) → List (Nat × List (Event Nat))
  | [] => []
  | e :: rest =>
    targetsOf rest ++
      match e.anchor with
      | some id => [(id, e :: rest)]
      | none => []

def ofDocument (document : Document) : Script :=
  let (events, fault) := number [] document.fault document.events
  ⟨events, targetsOf events, fault, document.followed⟩

def ofText (text : String) : Script := ofDocument (.ofText text.toList)

def isBlank (script : Script) : Bool := script.events.isEmpty && script.fault.isNone

def ending {α : Type} (script : Script) : Except Fault α :=
  .error (script.fault.getD ⟨.endOfEvents, none⟩)

end Script

structure Progress where
  events : List (Event Nat)
  jumps : Nat

structure Entered where
  event : Event Nat
  inside : Progress
  back : Option (List (Event Nat))

def Entered.leave (entered : Entered) (p : Progress) : Progress :=
  match entered.back with
  | some events => { p with events }
  | none => p

namespace Script

def enter (script : Script) (p : Progress) : Except Fault Entered :=
  match p.events with
  | [] => script.ending
  | e :: rest =>
    match e.happening with
    | .alias target =>
      let jumps := p.jumps + 1
      if script.events.length * 100 < jumps then .error ⟨.tooManyAliases, none⟩
      else
        match script.targets.find? fun t => t.1 == target with
        | some (_, first :: after) => .ok ⟨first, ⟨after, jumps⟩, some rest⟩
        | _ => script.ending
    | _ => .ok ⟨e, ⟨rest, p.jumps⟩, none⟩

def closes (happening : Happening Nat) : Bool := happening == .sequenceEnd || happening == .mappingEnd

mutual

def readValue (script : Script) (depth : Nat) (p : Progress) : Nat → Except Fault (Value × Progress)
  | 0 => script.ending
  | steps + 1 => do
    let entered ← script.enter p
    let e := entered.event
    match e.happening, depth with
    | .scalar text plain tag, _ =>
      match Meaning.ofScalar text plain tag with
      | .ok value => return (value, entered.leave entered.inside)
      | .error cause => .error ⟨cause, some e.place⟩
    | .sequenceStart tag, depth + 1 => do
      let (items, p) ← readItems script depth entered.inside steps
      return (Meaning.withTag tag (.sequence items), entered.leave p)
    | .mappingStart tag, depth + 1 => do
      let (entries, p) ← readEntries script depth e.place [] entered.inside steps
      return (Meaning.withTag tag (.mapping entries), entered.leave p)
    | .sequenceStart _, 0 => .error ⟨.tooDeep, some e.place⟩
    | .mappingStart _, 0 => .error ⟨.tooDeep, some e.place⟩
    | _, _ => script.ending

def readItems (script : Script) (depth : Nat) (p : Progress) :
    Nat → Except Fault (List Value × Progress)
  | 0 => script.ending
  | steps + 1 =>
    match p.events with
    | [] => script.ending
    | e :: rest =>
      if closes e.happening then .ok ([], { p with events := rest })
      else do
        let (value, p) ← readValue script depth p steps
        let (values, p) ← readItems script depth p steps
        return (value :: values, p)

def readEntries (script : Script) (depth place : Nat) (seen : List (Value × Value)) (p : Progress) :
    Nat → Except Fault (List (Value × Value) × Progress)
  | 0 => script.ending
  | steps + 1 =>
    match p.events with
    | [] => script.ending
    | e :: rest =>
      if closes e.happening then .ok (seen, { p with events := rest })
      else do
        let (key, p) ← readValue script depth p steps
        if seen.any fun entry => entry.1.same key then .error ⟨.repeatedKey, some place⟩
        else
          let (value, p) ← readValue script depth p steps
          readEntries script depth place (seen ++ [(key, value)]) p steps

end

def wrongKind {α : Type} (e : Event Nat) : Except Fault α := .error ⟨.wrongKind, some e.place⟩

def readText (script : Script) (p : Progress) : Except Fault (String × Progress) := do
  let entered ← script.enter p
  match entered.event.happening with
  | .scalar text _ _ => return (text, entered.leave entered.inside)
  | _ => wrongKind entered.event

abbrev Reader (α : Type) := Progress → Except Fault (α × Progress)

def readListFrom {α : Type} (script : Script) (read : Reader α) (p : Progress) :
    Nat → Except Fault (List α × Progress)
  | 0 => script.ending
  | steps + 1 =>
    match p.events with
    | [] => script.ending
    | e :: rest =>
      if closes e.happening then .ok ([], { p with events := rest })
      else do
        let (x, p) ← read p
        let (xs, p) ← readListFrom script read p steps
        return (x :: xs, p)

def readList {α : Type} (script : Script) (read : Reader α) (p : Progress) :
    Except Fault (List α × Progress) := do
  let entered ← script.enter p
  match entered.event.happening with
  | .sequenceStart _ => do
    let (xs, p) ← readListFrom script read entered.inside (script.events.length + 1)
    return (xs, entered.leave p)
  | .scalar "" true _ => return ([], entered.leave entered.inside)
  | _ => wrongKind entered.event

def readMapFrom {α : Type} (script : Script) (read : Reader α) (seen : Entries α) (p : Progress) :
    Nat → Except Fault (Entries α × Progress)
  | 0 => script.ending
  | steps + 1 =>
    match p.events with
    | [] => script.ending
    | e :: rest =>
      if closes e.happening then .ok (seen, { p with events := rest })
      else do
        let (key, p) ← script.readText p
        let (x, p) ← read p
        readMapFrom script read (seen.insert key x) p steps

def readMap {α : Type} (script : Script) (read : Reader α) (p : Progress) :
    Except Fault (Entries α × Progress) := do
  let entered ← script.enter p
  match entered.event.happening with
  | .mappingStart _ => do
    let (entries, p) ← readMapFrom script read [] entered.inside (script.events.length + 1)
    return (entries, entered.leave p)
  | .scalar "" true _ => return ([], entered.leave entered.inside)
  | _ => wrongKind entered.event

def depthLimit : Nat := 128

def readOnly {α : Type} (script : Script) (blank : α) (read : Reader α) : Except Fault α := do
  if script.isBlank then return blank
  let (x, _) ← read ⟨script.events, 0⟩
  match script.fault with
  | some fault => .error fault
  | none => if script.followed then .error ⟨.severalDocuments, none⟩ else return x

end Script

def readValue (text : String) : Except Fault Value :=
  let script := Script.ofText text
  script.readOnly .null fun p =>
    script.readValue Script.depthLimit p (300 * (script.events.length + 2))

def readTable (text : String) : Except Fault (Entries (Entries (List String))) :=
  let script := Script.ofText text
  script.readOnly [] (script.readMap (script.readMap (script.readList script.readText)))

end CloudTemplate.Yaml
