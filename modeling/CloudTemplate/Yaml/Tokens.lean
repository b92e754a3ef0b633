import CloudTemplate.Yaml.Scalar.Block
import CloudTemplate.Yaml.Scalar.Plain
import CloudTemplate.Yaml.Scalar.Quoted
import CloudTemplate.Yaml.Token
/-! The tokens of a whole text. They are read from left to right; a token that may begin a key is
remembered, and when a colon follows it on its line the tokens for the key are put before it. A text
that breaks off has the tokens up to the first one that might still have become a key. -/
namespace CloudTemplate.Yaml

/-- A token that may begin a key: its number among the tokens and its place. In a block it has to be a
key when it stands at the block's own column. -/
structure PendingKey where
  number : Nat
  place : Cursor
  required : Bool

/-- How far a text has been read. `tokens` has the last token first. `outer` holds a pending key, or
none, for each collection that is open around the current one; `columns` holds the columns of the
blocks around the current one. -/
structure Lexer where
  cursor : Cursor
  tokens : List Token
  column : Int
  columns : List Int
  keyAllowed : Bool
  pending : Option PendingKey
  outer : List (Option PendingKey)

structure Lexed where
  tokens : List Token
  fault : Option Fault

namespace Lexer

def ofText (cs : List Char) : Lexer := ⟨.ofText cs, [], -1, [], true, none, []⟩

def inFlow (l : Lexer) : Bool := !l.outer.isEmpty

def faultHere {α : Type} (l : Lexer) (cause : Cause) : Except Fault α := .error (l.cursor.fault cause)

def push (l : Lexer) (sign : Sign) : Lexer := { l with tokens := ⟨sign, l.cursor.offset⟩ :: l.tokens }

def pushTo (l : Lexer) (sign : Sign) (after : Cursor) : Lexer := { l.push sign with cursor := after }

def putBefore (l : Lexer) (number : Nat) (token : Token) : Lexer :=
  let later := l.tokens.length - number
  { l with tokens := l.tokens.take later ++ token :: l.tokens.drop later }

def isStale (l : Lexer) (key : PendingKey) : Bool :=
  key.place.line < l.cursor.line || key.place.offset + 1024 < l.cursor.offset

def isLost (l : Lexer) (pending : Option PendingKey) : Bool :=
  pending.any fun key => l.isStale key && key.required

def dropStale (l : Lexer) : Except Fault Lexer :=
  if l.isLost l.pending || l.outer.any l.isLost then l.faultHere .missingColon
  else
    let fresh (pending : Option PendingKey) := pending.filter fun key => !l.isStale key
    .ok { l with pending := fresh l.pending, outer := l.outer.map fresh }

def dropPending (l : Lexer) : Except Fault Lexer :=
  if l.pending.any PendingKey.required then l.faultHere .missingColon else .ok { l with pending := none }

def markKey (l : Lexer) : Except Fault Lexer :=
  if !l.keyAllowed then .ok l
  else do
    let required := !l.inFlow && l.column == l.cursor.column
    let key : PendingKey := ⟨l.tokens.length, l.cursor, required⟩
    let l ← l.dropPending
    return { l with pending := some key }

def openBlock (l : Lexer) (column : Nat) (put : Lexer → Lexer) : Lexer :=
  if !l.inFlow && l.column < column then
    put { l with column := column, columns := l.column :: l.columns }
  else l

def closeBlocksFrom (l : Lexer) (column : Int) : List Int → Lexer
  | [] => l
  | parent :: columns =>
    if column < l.column then closeBlocksFrom { l.push .blockEnd with column := parent, columns } column columns
    else l

def closeBlocks (l : Lexer) (column : Int) : Lexer :=
  if l.inFlow then l else closeBlocksFrom l column l.columns

/-- Passes blanks, comments and line breaks. A new line of a block may begin with a key; where a key may
begin, tabs are no blanks. -/
def skipToToken (l : Lexer) : Nat → Lexer
  | 0 => l
  | steps + 1 =>
    let c := if l.cursor.column == 0 && l.cursor.atChar byteOrderMark then l.cursor.skip 1 else l.cursor
    let c := c.skipRun fun ch => ch == ' ' || (ch == '\t' && (l.inFlow || !l.keyAllowed))
    let c := c.skipComment
    if c.atBreak then
      skipToToken { l with cursor := c.skipBreak, keyAllowed := l.keyAllowed || !l.inFlow } steps
    else { l with cursor := c }

def readEnd (l : Lexer) : Except Fault Lexer := do
  let c := l.cursor
  let l := { l with cursor := if c.column = 0 then c else { c with column := 0, line := c.line + 1 } }
  let l ← (l.closeBlocks (-1)).dropPending
  return { l with keyAllowed := false }.push .streamEnd

def readDirective (l : Lexer) : Except Fault Lexer := do
  let l ← (l.closeBlocks (-1)).dropPending
  let (sign, c) ← takeDirective l.cursor
  return { l with keyAllowed := false }.pushTo sign c

def readMarker (l : Lexer) (sign : Sign) : Except Fault Lexer := do
  let l ← (l.closeBlocks (-1)).dropPending
  return { l with keyAllowed := false }.pushTo sign (l.cursor.skip 3)

def openFlow (l : Lexer) (sign : Sign) : Except Fault Lexer := do
  let l ← l.markKey
  let l := { l with outer := l.pending :: l.outer, pending := none, keyAllowed := true }
  return l.pushTo sign (l.cursor.skip 1)

def closeFlow (l : Lexer) (sign : Sign) : Except Fault Lexer := do
  let l ← l.dropPending
  let l := match l.outer with
    | [] => l
    | pending :: outer => { l with pending, outer }
  return { l with keyAllowed := false }.pushTo sign (l.cursor.skip 1)

def readComma (l : Lexer) : Except Fault Lexer := do
  let l ← l.dropPending
  return { l with keyAllowed := true }.pushTo .comma (l.cursor.skip 1)

def readItem (l : Lexer) : Except Fault Lexer := do
  if !l.inFlow && !l.keyAllowed then l.faultHere .misplacedItem
  else
    let l := l.openBlock l.cursor.column fun l => l.push .blockSequence
    let l ← l.dropPending
    return { l with keyAllowed := true }.pushTo .item (l.cursor.skip 1)

def readKey (l : Lexer) : Except Fault Lexer := do
  if !l.inFlow && !l.keyAllowed then l.faultHere .misplacedKey
  else
    let l := l.openBlock l.cursor.column fun l => l.push .blockMapping
    let l ← l.dropPending
    return { l with keyAllowed := !l.inFlow }.pushTo .key (l.cursor.skip 1)

/-- A colon makes the pending key a key. Without one it follows a key that is no single line, or none. -/
def readValue (l : Lexer) : Except Fault Lexer := do
  match l.pending with
  | some key =>
    let place := key.place.offset
    let l := l.putBefore key.number ⟨.key, place⟩
    let l := l.openBlock key.place.column fun l => l.putBefore key.number ⟨.blockMapping, place⟩
    return { l with pending := none, keyAllowed := false }.pushTo .value (l.cursor.skip 1)
  | none =>
    if !l.inFlow && !l.keyAllowed then l.faultHere .misplacedValue
    else
      let l := l.openBlock l.cursor.column fun l => l.push .blockMapping
      return { l with keyAllowed := !l.inFlow }.pushTo .value (l.cursor.skip 1)

def readName (l : Lexer) (sign : String → Sign) : Except Fault Lexer := do
  let l ← l.markKey
  let (name, c) ← takeName l.cursor
  return { l with keyAllowed := false }.pushTo (sign name) c

def readTag (l : Lexer) : Except Fault Lexer := do
  let l ← l.markKey
  let (tag, c) ← Tag.read l.inFlow l.cursor
  return { l with keyAllowed := false }.pushTo (.tag tag) c

def readBlockScalar (l : Lexer) (folded : Bool) : Except Fault Lexer := do
  let l ← l.dropPending
  let (text, c) ← Block.read folded l.column l.cursor
  return { l with keyAllowed := true }.pushTo (.scalar (String.ofList text) false) c

def readQuoted (l : Lexer) (quote : Char) : Except Fault Lexer := do
  let l ← l.markKey
  let (text, c) ← Quoted.read quote l.cursor
  return { l with keyAllowed := false }.pushTo (.scalar (String.ofList text) false) c

def readPlain (l : Lexer) : Except Fault Lexer := do
  let l ← l.markKey
  let reading ← Plain.read l.inFlow (l.column + 1) l.cursor
  return { l with keyAllowed := reading.brokenLine }.pushTo
    (.scalar (String.ofList reading.text) true) reading.cursor

def isIndicator (c : Char) : Bool := "-?:,[]\x7b\x7d#&*!|>'\"%@\x60".toList.contains c

def startsPlain (inFlow : Bool) (c : Char) (after : List Char) : Bool :=
  !(endsWord [c] || isIndicator c)
    || (c == '-' && !after.head?.any Text.isGap)
    || (!inFlow && (c == '?' || c == ':') && !endsWord after)

def readToken (l : Lexer) (ch : Char) (after : List Char) : Except Fault Lexer :=
  let wordEnds := l.inFlow || endsWord after
  if l.cursor.column = 0 && ch = '%' then l.readDirective
  else if l.cursor.atMarker '-' then l.readMarker .documentStart
  else if l.cursor.atMarker '.' then l.readMarker .documentEnd
  else if ch = '[' then l.openFlow .flowSequence
  else if ch = '\x7b' then l.openFlow .flowMapping
  else if ch = ']' then l.closeFlow .flowSequenceEnd
  else if ch = '\x7d' then l.closeFlow .flowMappingEnd
  else if ch = ',' then l.readComma
  else if ch = '-' && endsWord after then l.readItem
  else if ch = '?' && wordEnds then l.readKey
  else if ch = ':' && wordEnds then l.readValue
  else if ch = '*' then l.readName .alias
  else if ch = '&' then l.readName .anchor
  else if ch = '!' then l.readTag
  else if (ch = '|' || ch = '>') && !l.inFlow then l.readBlockScalar (ch == '>')
  else if ch = '\'' || ch = '"' then l.readQuoted ch
  else if startsPlain l.inFlow ch after then l.readPlain
  else l.faultHere .noTokenStart

def next (l : Lexer) : Except Fault Lexer := do
  let l ← (l.skipToToken (l.cursor.rest.length + 1)).dropStale
  let l := l.closeBlocks l.cursor.column
  let l ← match l.cursor.rest with
    | [] => l.readEnd
    | ch :: after => l.readToken ch after
  l.dropStale

def certain (l : Lexer) : List Token :=
  let numbers := ((l.pending :: l.outer).filterMap id).map PendingKey.number
  l.tokens.reverse.take (numbers.foldl min l.tokens.length)

def readAll (l : Lexer) : Nat → Lexed
  | 0 => ⟨l.certain, none⟩
  | steps + 1 =>
    match l.next with
    | .error fault => ⟨l.certain, some fault⟩
    | .ok l =>
      match l.tokens with
      | ⟨.streamEnd, _⟩ :: _ => ⟨l.tokens.reverse, none⟩
      | _ => readAll l steps

end Lexer

def Lexed.ofText (cs : List Char) : Lexed :=
  if cs.all isAllowed then (Lexer.ofText cs).readAll (cs.length + 1)
  else ⟨[], some ⟨.forbiddenCharacter, none⟩⟩

end CloudTemplate.Yaml
