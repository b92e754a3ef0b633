import CloudTemplate.Yaml.Tokens
/-! The events of a document: its scalars, and the starts and ends of its sequences and mappings, in the
order of the text. Events are read off the tokens against a stack of expectations, one look at a
token at a time. A node that is left out is an empty scalar. -/
namespace CloudTemplate.Yaml

abbrev Octets := List UInt8

inductive Happening (ρ : Type) where
  | scalar (text : String) (plain : Bool) (tag : Option Octets)
  | alias (target : ρ)
  | sequenceStart (tag : Option Octets)
  | sequenceEnd
  | mappingStart (tag : Option Octets)
  | mappingEnd
  deriving DecidableEq, Repr

structure Event (ρ : Type) where
  happening : Happening ρ
  anchor : Option ρ
  place : Nat
  deriving DecidableEq, Repr

structure Properties where
  anchor : Option String
  tag : Option (Tag × Nat)
  place : Option Nat
  deriving DecidableEq, Repr

def Properties.none : Properties := ⟨.none, .none, .none⟩

inductive Expect where
  /-- The content of a document after its marker. -/
  | content
  /-- A node, of which some properties have been read. Blocks may stand in it or not, and so may a
  sequence that is not indented. -/
  | node (blocks loose : Bool) (properties : Properties)
  /-- A node, or nothing before one of the signs. -/
  | child (blocks loose : Bool) (ends : List Sign)
  | blockItem
  | looseItem
  | blockKey
  | blockValue
  | flowItem (first : Bool)
  | flowElement
  | pairKey
  | pairValue
  | pairEnd
  | flowKey (first : Bool)
  | flowEntry
  | flowValue
  | noValue
  deriving DecidableEq, Repr

structure Move where
  event : Option (Event String)
  stack : List Expect
  passes : Bool

abbrev Handles := List (String × Octets)

def standardHandles : Handles := [("!", Tag.octets ['!']), ("!!", Tag.octets "tag:yaml.org,2002:".toList)]

def Tag.expand (handles : Handles) (place : Nat) (tag : Tag) : Except Fault Octets :=
  if tag.handle = "" then .ok tag.suffix
  else
    match handles.find? fun h => h.1 == tag.handle with
    | some h => .ok (h.2 ++ tag.suffix)
    | none => .error ⟨.unknownHandle, some place⟩

namespace Expect

def faultAt (token : Token) (cause : Cause) : Except Fault Move := .error ⟨cause, some token.place⟩

def emptyScalar (token : Token) : Event String := ⟨.scalar "" true none, none, token.place⟩

def closing (token : Token) (happening : Happening String) : Event String :=
  ⟨happening, none, token.place⟩

def isBoundary : Sign → Bool
  | .version .. | .handle .. | .documentStart | .documentEnd | .streamEnd => true
  | _ => false

/-- The event of a node's content with what is expected inside, and whether the content's first token
has been dealt with. Nothing at all is content when the node has properties. -/
def nodeStart (blocks loose empty : Bool) (tag : Option Octets) :
    Sign → Option (Happening String × List Expect × Bool)
  | .item => if loose then some (.sequenceStart tag, [.looseItem], false) else missing
  | .scalar text plain => some (.scalar text plain tag, [], true)
  | .flowSequence => some (.sequenceStart tag, [.flowItem true], true)
  | .flowMapping => some (.mappingStart tag, [.flowKey true], true)
  | .blockSequence => if blocks then some (.sequenceStart tag, [.blockItem], true) else missing
  | .blockMapping => if blocks then some (.mappingStart tag, [.blockKey], true) else missing
  | _ => missing
where
  missing : Option (Happening String × List Expect × Bool) :=
    if empty then some (.scalar "" true tag, [], false) else none

def moveNode (handles : Handles) (blocks loose : Bool) (p : Properties) (rest : List Expect)
    (token : Token) : Except Fault Move :=
  let place := p.place.getD token.place
  match token.sign, p.anchor, p.tag with
  | .alias name, none, none => .ok ⟨some ⟨.alias name, none, place⟩, rest, true⟩
  | .anchor name, none, _ =>
    .ok ⟨none, .node blocks loose { p with anchor := some name, place := some place } :: rest, true⟩
  | .tag tag, _, none =>
    .ok ⟨none, .node blocks loose { p with tag := some (tag, token.place), place := some place } :: rest,
      true⟩
  | sign, anchor, tag => do
    let full ← match tag with
      | none => pure none
      | some (tag, at_) => (tag.expand handles at_).map some
    match nodeStart blocks loose (anchor.isSome || full.isSome) full sign with
    | none => faultAt token .expectedNode
    | some (happening, inside, passes) => return ⟨some ⟨happening, anchor, place⟩, inside ++ rest, passes⟩

def move (handles : Handles) (rest : List Expect) (token : Token) : Expect → Except Fault Move
  | .content =>
    if isBoundary token.sign then .ok ⟨some (emptyScalar token), rest, false⟩
    else .ok ⟨none, .node true false .none :: rest, false⟩
  | .node blocks loose properties => moveNode handles blocks loose properties rest token
  | .child blocks loose ends =>
    if ends.contains token.sign then .ok ⟨some (emptyScalar token), rest, false⟩
    else .ok ⟨none, .node blocks loose .none :: rest, false⟩
  | .blockItem =>
    match token.sign with
    | .item => .ok ⟨none, .child true false [.item, .blockEnd] :: .blockItem :: rest, true⟩
    | .blockEnd => .ok ⟨some (closing token .sequenceEnd), rest, true⟩
    | _ => faultAt token .expectedItem
  | .looseItem =>
    match token.sign with
    | .item =>
      .ok ⟨none, .child true false [.item, .key, .value, .blockEnd] :: .looseItem :: rest, true⟩
    | _ => .ok ⟨some (closing token .sequenceEnd), rest, false⟩
  | .blockKey =>
    match token.sign with
    | .key => .ok ⟨none, .child true true [.key, .value, .blockEnd] :: .blockValue :: rest, true⟩
    | .blockEnd => .ok ⟨some (closing token .mappingEnd), rest, true⟩
    | _ => faultAt token .expectedKey
  | .blockValue =>
    match token.sign with
    | .value => .ok ⟨none, .child true true [.key, .value, .blockEnd] :: .blockKey :: rest, true⟩
    | _ => .ok ⟨some (emptyScalar token), .blockKey :: rest, false⟩
  | .flowItem first =>
    match token.sign with
    | .flowSequenceEnd => .ok ⟨some (closing token .sequenceEnd), rest, true⟩
    | .comma => if first then .ok ⟨none, .flowElement :: rest, false⟩ else .ok ⟨none, .flowElement :: rest, true⟩
    | _ => if first then .ok ⟨none, .flowElement :: rest, false⟩ else faultAt token .expectedSeparator
  | .flowElement =>
    match token.sign with
    | .key => .ok ⟨some (closing token (.mappingStart none)), .pairKey :: rest, true⟩
    | .flowSequenceEnd => .ok ⟨some (closing token .sequenceEnd), rest, true⟩
    | _ => .ok ⟨none, .node false false .none :: .flowItem false :: rest, false⟩
  | .pairKey =>
    match token.sign with
    | .value | .comma | .flowSequenceEnd => .ok ⟨some (emptyScalar token), .pairValue :: rest, true⟩
    | _ => .ok ⟨none, .node false false .none :: .pairValue :: rest, false⟩
  | .pairValue =>
    match token.sign with
    | .value => .ok ⟨none, .child false false [.comma, .flowSequenceEnd] :: .pairEnd :: rest, true⟩
    | _ => .ok ⟨some (emptyScalar token), .pairEnd :: rest, false⟩
  | .pairEnd => .ok ⟨some (closing token .mappingEnd), .flowItem false :: rest, false⟩
  | .flowKey first =>
    match token.sign with
    | .flowMappingEnd => .ok ⟨some (closing token .mappingEnd), rest, true⟩
    | .comma => if first then .ok ⟨none, .flowEntry :: rest, false⟩ else .ok ⟨none, .flowEntry :: rest, true⟩
    | _ => if first then .ok ⟨none, .flowEntry :: rest, false⟩ else faultAt token .expectedSeparator
  | .flowEntry =>
    match token.sign with
    | .key => .ok ⟨none, .child false false [.value, .comma, .flowMappingEnd] :: .flowValue :: rest, true⟩
    | .flowMappingEnd => .ok ⟨some (closing token .mappingEnd), rest, true⟩
    | _ => .ok ⟨none, .node false false .none :: .noValue :: rest, false⟩
  | .flowValue =>
    match token.sign with
    | .value => .ok ⟨none, .child false false [.comma, .flowMappingEnd] :: .flowKey false :: rest, true⟩
    | _ => .ok ⟨some (emptyScalar token), .flowKey false :: rest, false⟩
  | .noValue => .ok ⟨some (emptyScalar token), .flowKey false :: rest, false⟩

end Expect

/-- The events of a text's first document, what ends them too early, and whether anything follows the
document. A text without a document has no events and no fault. -/
structure Document where
  events : List (Event String)
  fault : Option Fault
  followed : Bool

namespace Document

def broken (fault : Option Fault) : Document :=
  ⟨[], some (fault.getD ⟨.endOfEvents, none⟩), false⟩

def isFollowed : List Token → Bool
  | [] => true
  | token :: rest =>
    match token.sign with
    | .documentEnd => isFollowed rest
    | .streamEnd => false
    | _ => true

def readEvents (handles : Handles) (fault : Option Fault) (stack : List Expect) (tokens : List Token) :
    Nat → Document
  | 0 => broken none
  | steps + 1 =>
    match tokens, stack with
    | [], _ => broken fault
    | tokens, [] => ⟨[], none, isFollowed tokens⟩
    | token :: later, expect :: rest =>
      match expect.move handles rest token with
      | .error fault => broken (some fault)
      | .ok move =>
        let document := readEvents handles fault move.stack (if move.passes then later else tokens) steps
        { document with events := move.event.toList ++ document.events }

def takeDirectives (handles : Handles) (versioned : Bool) (fault : Option Fault) :
    List Token → Except Fault (Handles × List Token)
  | [] => .error (fault.getD ⟨.endOfEvents, none⟩)
  | token :: rest =>
    match token.sign with
    | .version major minor =>
      if versioned then .error ⟨.repeatedDirective, some token.place⟩
      else if major != 1 || (minor != 1 && minor != 2) then .error ⟨.unknownVersion, some token.place⟩
      else takeDirectives handles true fault rest
    | .handle name start =>
      if handles.any fun h => h.1 == name then .error ⟨.repeatedDirective, some token.place⟩
      else takeDirectives (handles ++ [(name, start)]) versioned fault rest
    | .documentStart => .ok (handles ++ standardHandles, rest)
    | _ => .error ⟨.expectedDocument, some token.place⟩

def startsDirectly : Sign → Bool
  | .version .. | .handle .. | .documentStart => false
  | _ => true

def ofTokens (lexed : Lexed) : Document :=
  let steps := 8 * lexed.tokens.length + 16
  match lexed.tokens with
  | [] => broken lexed.fault
  | ⟨.streamEnd, _⟩ :: _ => ⟨[], none, false⟩
  | token :: _ =>
    if startsDirectly token.sign then
      readEvents standardHandles lexed.fault [.node true false .none] lexed.tokens steps
    else
      match takeDirectives [] false lexed.fault lexed.tokens with
      | .error fault => broken (some fault)
      | .ok (handles, tokens) => readEvents handles lexed.fault [.content] tokens steps

def ofText (text : List Char) : Document := ofTokens (.ofText text)

end Document

end CloudTemplate.Yaml
