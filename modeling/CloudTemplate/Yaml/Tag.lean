import CloudTemplate.Text.Digits
import CloudTemplate.Text.Utf8
import CloudTemplate.Yaml.Cursor
/-! Tags as they are written: a handle and a suffix, or a whole tag between angle brackets. A suffix is
held as octets, since its escapes may write octets that form no text. -/
namespace CloudTemplate.Yaml

structure Tag where
  handle : String
  suffix : List UInt8
  deriving DecidableEq, Repr

namespace Tag

def octets (cs : List Char) : List UInt8 := Text.octets (String.ofList cs)

def isTagChar (verbatim : Bool) (c : Char) : Bool :=
  isNameChar c || ";/?:@&=+$.%!~*'()".toList.contains c || (verbatim && ",[]".toList.contains c)

def takeOctet (c : Cursor) : Except Fault (UInt8 × Cursor) :=
  match c.rest with
  | '%' :: a :: b :: _ =>
    match Text.digits? 16 [a, b] with
    | some n => .ok (UInt8.ofNat n, c.skip 3)
    | none => .error (c.fault .tagEscape)
  | _ => .error (c.fault .tagEscape)

def tailCount (first : UInt8) : Option Nat :=
  if first < 0x80 then some 0
  else if first < 0xC0 then none
  else if first < 0xE0 then some 1
  else if first < 0xF0 then some 2
  else if first < 0xF8 then some 3
  else none

def takeTail (c : Cursor) : Nat → Except Fault (List UInt8 × Cursor)
  | 0 => .ok ([], c)
  | count + 1 => do
    let (octet, after) ← takeOctet c
    if octet < 0x80 || 0xC0 ≤ octet then .error (c.fault .tagEscape)
    else
      let (octets, after) ← takeTail after count
      return (octet :: octets, after)

def takeEscaped (c : Cursor) : Except Fault (List UInt8 × Cursor) := do
  let (first, after) ← takeOctet c
  match tailCount first with
  | none => .error (c.fault .tagEscape)
  | some count => do
    let (tail, after) ← takeTail after count
    return (first :: tail, after)

def takeChars (verbatim : Bool) (c : Cursor) : Nat → Except Fault (List UInt8 × Cursor)
  | 0 => .ok ([], c)
  | steps + 1 =>
    match c.rest with
    | [] => .ok ([], c)
    | ch :: _ =>
      if !isTagChar verbatim ch then .ok ([], c)
      else do
        let (taken, after) ← if ch = '%' then takeEscaped c else pure (octets [ch], c.skip 1)
        let (rest, after) ← takeChars verbatim after steps
        return (taken ++ rest, after)

def untilZero (octets : List UInt8) : List UInt8 := octets.takeWhile (· != 0)

def takeText (verbatim : Bool) (c : Cursor) : Except Fault (List UInt8 × Cursor) := do
  let (taken, after) ← takeChars verbatim c c.rest.length
  if after.offset = c.offset then .error (after.fault .tagText) else return (untilZero taken, after)

/-- Takes a handle: a name between exclamation marks, one mark with the name that follows it, or no
name at all. A directive defines no handle of the second kind. -/
def takeHandle (forDirective : Bool) (c : Cursor) : Except Fault (List Char × Cursor) :=
  if !c.atChar '!' then .error (c.fault .tagHandle)
  else
    let name := (c.skip 1).run isNameChar
    let after := c.skip (1 + name.length)
    if after.atChar '!' then .ok ('!' :: name ++ ['!'], after.skip 1)
    else if forDirective && !name.isEmpty then .error (after.fault .tagHandle)
    else .ok ('!' :: name, after)

def takeVerbatim (c : Cursor) : Except Fault (Tag × Cursor) := do
  let (suffix, c) ← takeText true (c.skip 2)
  if c.atChar '>' then return (⟨"", suffix⟩, c.skip 1) else .error (c.fault .tagText)

/-- Takes a tag with a handle. A name after a single mark belongs to the suffix, and a mark alone is a
tag by itself. -/
def takeShort (c : Cursor) : Except Fault (Tag × Cursor) := do
  let (handle, c) ← takeHandle false c
  if 2 ≤ handle.length && handle.getLast? = some '!' then do
    let (suffix, c) ← takeText false c
    return (⟨String.ofList handle, suffix⟩, c)
  else do
    let (rest, c) ← takeChars false c c.rest.length
    let suffix := untilZero (octets (handle.drop 1) ++ rest)
    return (if suffix.isEmpty then ⟨"", octets ['!']⟩ else ⟨"!", suffix⟩, c)

def read (inFlow : Bool) (c : Cursor) : Except Fault (Tag × Cursor) := do
  let (tag, c) ← if (c.rest.drop 1).head? = some '<' then takeVerbatim c else takeShort c
  if endsWord c.rest || (inFlow && c.atChar ',') then return (tag, c) else .error (c.fault .tagEnd)

end Tag

end CloudTemplate.Yaml
