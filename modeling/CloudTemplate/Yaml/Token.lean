import CloudTemplate.Yaml.Tag
/-! Tokens of a YAML text. Those for the start and the end of a block stand where its indentation
changes, and a key's token stands before the key, though only the colon after it tells that it is one. -/
namespace CloudTemplate.Yaml

inductive Sign where
  | streamEnd
  | documentStart
  | documentEnd
  | version (major minor : Nat)
  | handle (name : String) (start : List UInt8)
  | blockSequence
  | blockMapping
  | blockEnd
  | flowSequence
  | flowSequenceEnd
  | flowMapping
  | flowMappingEnd
  | item
  | comma
  | key
  | value
  | alias (name : String)
  | anchor (name : String)
  | tag (tag : Tag)
  | scalar (text : String) (plain : Bool)
  deriving DecidableEq, Repr

structure Token where
  sign : Sign
  place : Nat
  deriving DecidableEq, Repr

def takeVersionNumber (c : Cursor) : Except Fault (Nat × Cursor) :=
  let digits := c.run Char.isDigit
  if digits.isEmpty then .error (c.fault .versionNumber)
  else if 9 < digits.length then .error ((c.skip 9).fault .versionNumber)
  else .ok (digits.foldl (fun n d => n * 10 + (d.toNat - '0'.toNat)) 0, c.skip digits.length)

def takeVersion (c : Cursor) : Except Fault (Sign × Cursor) := do
  let (major, c) ← takeVersionNumber (c.skipRun Text.isGap)
  if !c.atChar '.' then .error (c.fault .versionNumber)
  else
    let (minor, c) ← takeVersionNumber (c.skip 1)
    return (.version major minor, c)

def takeHandleDirective (c : Cursor) : Except Fault (Sign × Cursor) := do
  let (handle, c) ← Tag.takeHandle true (c.skipRun Text.isGap)
  if !c.atGap then .error (c.fault .tagHandle)
  else
    let (start, c) ← Tag.takeText true (c.skipRun Text.isGap)
    if endsWord c.rest then return (.handle (String.ofList handle) start, c) else .error (c.fault .tagEnd)

def takeDirective (c : Cursor) : Except Fault (Sign × Cursor) := do
  let c := c.skip 1
  let name := c.run isNameChar
  let c := c.skip name.length
  if name.isEmpty || !endsWord c.rest then .error (c.fault .directiveName)
  else
    let (sign, c) ←
      if name = "YAML".toList then takeVersion c
      else if name = "TAG".toList then takeHandleDirective c
      else .error (c.fault .unknownDirective)
    let c := (c.skipRun Text.isGap).skipComment
    if c.rest.isEmpty || c.atBreak then return (sign, c.skipBreak) else .error (c.fault .directiveEnd)

def takeName (c : Cursor) : Except Fault (String × Cursor) :=
  let name := (c.skip 1).run isNameChar
  let c := c.skip (1 + name.length)
  if !name.isEmpty && (endsWord c.rest || c.rest.head?.any "?:,]\x7d%@\x60".toList.contains) then
    .ok (String.ofList name, c)
  else .error (c.fault .anchorName)

end CloudTemplate.Yaml
