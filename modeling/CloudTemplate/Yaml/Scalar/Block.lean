import CloudTemplate.Yaml.Cursor
/-! Block scalars: a header, and the indented lines below it. Literal ones keep their line breaks; in
folded ones a line break between two lines that start with no blank becomes a space. The header says
what becomes of the line breaks at the end. -/
namespace CloudTemplate.Yaml.Block

inductive Chomping where
  | strip
  | clip
  | keep
  deriving DecidableEq, Repr

def takeChomping (c : Cursor) : Option Chomping × Cursor :=
  if c.atChar '+' then (some .keep, c.skip 1)
  else if c.atChar '-' then (some .strip, c.skip 1)
  else (none, c)

def takeDepth (c : Cursor) : Except Fault (Option Nat × Cursor) :=
  match c.rest with
  | [] => .ok (none, c)
  | ch :: _ =>
    if ch = '0' then .error (c.fault .zeroIndentation)
    else if ch.isDigit then .ok (some (ch.toNat - '0'.toNat), c.skip 1)
    else .ok (none, c)

structure Header where
  chomping : Chomping
  depth : Option Nat
  deriving DecidableEq, Repr

def takeIndicators (c : Cursor) : Except Fault (Header × Cursor) := do
  match takeChomping c with
  | (some chomping, c) => do
    let (depth, c) ← takeDepth c
    return (⟨chomping, depth⟩, c)
  | (none, c) => do
    let (depth, c) ← takeDepth c
    let (chomping, c) := if depth.isSome then takeChomping c else (none, c)
    return (⟨chomping.getD .clip, depth⟩, c)

def takeHeader (c : Cursor) : Except Fault (Header × Cursor) := do
  let (header, c) ← takeIndicators c
  let c := (c.skipRun Text.isGap).skipComment
  if c.rest.isEmpty || c.atBreak then return (header, c.skipBreak) else .error (c.fault .blockHeader)

structure Breaks where
  text : List Char
  widest : Nat
  cursor : Cursor

def takeBreaks (depth : Option Nat) (widest : Nat) (c : Cursor) : Nat → Except Fault Breaks
  | 0 => .ok ⟨[], widest, c⟩
  | steps + 1 =>
    let width := (c.run Text.isSpace).length
    let c := c.skip (match depth with
      | none => width
      | some depth => min width (depth - c.column))
    let widest := max widest c.column
    if c.atChar '\t' && depth.all fun depth => decide (c.column < depth) then
      .error (c.fault .tabIndentation)
    else if c.atBreak then do
      let breaks ← takeBreaks depth widest c.skipBreak steps
      return { breaks with text := c.breakAhead ++ breaks.text }
    else .ok ⟨[], widest, c⟩

def joint (folded : Bool) (first later : List Char) (blankBefore blankAfter : Bool) : List Char :=
  if folded && first = ['\n'] && !blankBefore && !blankAfter then
    (if later = [] then [' '] else []) ++ later
  else first ++ later

def tail (chomping : Chomping) (first later : List Char) : List Char :=
  match chomping with
  | .strip => []
  | .clip => first
  | .keep => first ++ later

def takeLines (folded : Bool) (chomping : Chomping) (depth : Nat) (first later : List Char)
    (blankBefore : Bool) (c : Cursor) : Nat → Except Fault (List Char × Cursor)
  | 0 => .ok (tail chomping first later, c)
  | steps + 1 =>
    if c.column != depth || c.rest.isEmpty then .ok (tail chomping first later, c)
    else do
      let line := c.run fun ch => !isBreak ch
      let after := c.skip line.length
      let breaks ← takeBreaks (some depth) 0 after.skipBreak after.rest.length
      let (text, last) ←
        takeLines folded chomping depth after.breakAhead breaks.text c.atGap breaks.cursor steps
      return (joint folded first later blankBefore c.atGap ++ line ++ text, last)

/-- Reads a scalar in a block that stands at the column `parent`; the cursor stands at the sign. The
first line that is not empty sets the depth where the header does not. -/
def read (folded : Bool) (parent : Int) (c : Cursor) : Except Fault (List Char × Cursor) := do
  let (header, c) ← takeHeader (c.skip 1)
  let depth := header.depth.map fun depth => (max parent 0).toNat + depth
  let breaks ← takeBreaks depth 0 c (c.rest.length + 1)
  let depth := depth.getD (max breaks.widest (max (parent + 1) 1).toNat)
  takeLines folded header.chomping depth [] breaks.text false breaks.cursor (c.rest.length + 1)

end CloudTemplate.Yaml.Block
