import CloudTemplate.Text.Blank
import CloudTemplate.Yaml.Fault
/-! Places in a YAML text. A cursor holds what is left of the text and where that stands: the octets
before it, its line, and its column in characters. A carriage return and the line feed after it are one
line break. -/
namespace CloudTemplate.Yaml

def isAllowed (c : Char) : Bool :=
  let n := c.toNat
  n == 9 || n == 10 || n == 13 || (0x20 ≤ n && n ≤ 0x7E) || n == 0x85 || (0xA0 ≤ n && n ≤ 0xFFFD)
    || 0x10000 ≤ n

def isBreak (c : Char) : Bool :=
  c == '\n' || c == '\r' || c == '\u0085' || c == '\u2028' || c == '\u2029'

def endsWord : List Char → Bool
  | [] => true
  | c :: _ => Text.isGap c || isBreak c

def isNameChar (c : Char) : Bool := c.isAlphanum || c == '_' || c == '-'

def byteOrderMark : Char := '\uFEFF'

def breakText (c : Char) : Char := if c == '\u2028' || c == '\u2029' then c else '\n'

structure Cursor where
  rest : List Char
  offset : Nat
  line : Nat
  column : Nat

namespace Cursor

def ofText (cs : List Char) : Cursor := ⟨cs, 0, 0, 0⟩

def skip (n : Nat) (c : Cursor) : Cursor :=
  { c with
    rest := c.rest.drop n
    offset := c.offset + Text.byteLength (c.rest.take n)
    column := c.column + (c.rest.take n).length }

def run (test : Char → Bool) (c : Cursor) : List Char := c.rest.takeWhile test

def skipRun (test : Char → Bool) (c : Cursor) : Cursor := c.skip (c.run test).length

def skipBreak (c : Cursor) : Cursor :=
  match c.rest with
  | '\r' :: '\n' :: rest => ⟨rest, c.offset + 2, c.line + 1, 0⟩
  | ch :: rest => if isBreak ch then ⟨rest, c.offset + ch.utf8Size, c.line + 1, 0⟩ else c
  | [] => c

def breakAhead (c : Cursor) : List Char :=
  match c.rest with
  | [] => []
  | ch :: _ => if isBreak ch then [breakText ch] else []

def atBreak (c : Cursor) : Bool := c.rest.head?.any isBreak

def atGap (c : Cursor) : Bool := c.rest.head?.any Text.isGap

def atChar (ch : Char) (c : Cursor) : Bool := c.rest.head? == some ch

def atMarker (mark : Char) (c : Cursor) : Bool :=
  c.column == 0 && c.rest.take 3 == [mark, mark, mark] && endsWord (c.rest.drop 3)

def atDocumentMarker (c : Cursor) : Bool := c.atMarker '-' || c.atMarker '.'

def skipComment (c : Cursor) : Cursor :=
  if c.atChar '#' then c.skipRun fun ch => !isBreak ch else c

def fault (c : Cursor) (cause : Cause) : Fault := ⟨cause, some c.offset⟩

end Cursor

end CloudTemplate.Yaml
