import CloudTemplate.Yaml.Cursor
/-! Gaps between the words of a scalar. Blanks on one line stand for themselves. Once a line ends, the
blanks around its end are dropped; one line feed alone is folded into a space, and further line breaks
stand for themselves. -/
namespace CloudTemplate.Yaml

structure Gap where
  blanks : List Char
  /-- The first line break and those that follow it. -/
  breaks : Option (List Char × List Char)
  deriving DecidableEq, Repr

namespace Gap

def none : Gap := ⟨[], .none⟩

def escaped : Gap := ⟨[], some ([], [])⟩

def text (gap : Gap) : List Char :=
  match gap.breaks with
  | .none => gap.blanks
  | some (first, later) =>
    if first = ['\n'] then (if later = [] then [' '] else later) else first ++ later

def addBreak (gap : Gap) (text : List Char) : Gap :=
  match gap.breaks with
  | .none => ⟨[], some (text, [])⟩
  | some (first, later) => { gap with breaks := some (first, later ++ text) }

/-- Takes the gap ahead. After a line break no tab may stand before the column `margin`. -/
def take (margin : Int) (gap : Gap) (c : Cursor) : Nat → Except Fault (Gap × Cursor)
  | 0 => .ok (gap, c)
  | steps + 1 =>
    if c.atGap then
      if gap.breaks.isNone then
        take margin { gap with blanks := gap.blanks ++ c.rest.take 1 } (c.skip 1) steps
      else if (c.column : Int) < margin && c.atChar '\t' then .error (c.fault .tabIndentation)
      else take margin gap (c.skip 1) steps
    else if c.atBreak then take margin (gap.addBreak c.breakAhead) c.skipBreak steps
    else .ok (gap, c)

end Gap

end CloudTemplate.Yaml
