import CloudTemplate.Yaml.Scalar.Gap
/-! Scalars without quotes. Such a scalar goes on over lines that are indented deeply enough, and ends at
a colon that ends a word, at a comment, or inside a collection at one of its signs. -/
namespace CloudTemplate.Yaml.Plain

def isFlowSign (c : Char) : Bool := c == ',' || c == '[' || c == ']' || c == '\x7b' || c == '\x7d'

def refusesColon : List Char → Bool
  | [] => false
  | c :: _ => isFlowSign c || c == '?'

def word (inFlow : Bool) : List Char → List Char × Bool
  | [] => ([], false)
  | c :: rest =>
    if Text.isGap c || isBreak c then ([], false)
    else if inFlow && c == ':' && refusesColon rest then ([], true)
    else if (c == ':' && endsWord rest) || (inFlow && isFlowSign c) then ([], false)
    else
      let (cs, refused) := word inFlow rest
      (c :: cs, refused)

structure Reading where
  text : List Char
  cursor : Cursor
  brokenLine : Bool

def takeWords (inFlow : Bool) (margin : Int) (gap : Gap) (c : Cursor) : Nat → Except Fault Reading
  | 0 => .ok ⟨[], c, gap.breaks.isSome⟩
  | steps + 1 =>
    if c.atDocumentMarker || c.atChar '#' then .ok ⟨[], c, gap.breaks.isSome⟩
    else
      let (cs, refused) := word inFlow c.rest
      let after := c.skip cs.length
      let text := gap.text ++ cs
      if refused then .error (after.fault .colonInCollection)
      else if cs.isEmpty then .ok ⟨[], c, gap.breaks.isSome⟩
      else if !(after.atGap || after.atBreak) then .ok ⟨text, after, false⟩
      else do
        let (gap, c) ← Gap.none.take margin after after.rest.length
        if !inFlow && (c.column : Int) < margin then return ⟨text, c, gap.breaks.isSome⟩
        let reading ← takeWords inFlow margin gap c steps
        return { reading with text := text ++ reading.text }

/-- Reads a scalar. Its lines have to stand at the column `margin` or deeper, but not in a collection. -/
def read (inFlow : Bool) (margin : Int) (c : Cursor) : Except Fault Reading :=
  takeWords inFlow margin .none c (c.rest.length + 1)

end CloudTemplate.Yaml.Plain
