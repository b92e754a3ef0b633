import CloudTemplate.Shorthand.Layout
/-! The indented lines that belong to a line, and the lines of keys that a chain of functions becomes in
front of them. -/
namespace CloudTemplate.Shorthand

structure SourceLine where
  number : Nat
  text : List Char
  deriving DecidableEq, Repr

/-- Whether a line belongs to one whose owner stands at a column: it is blank or indented past the
column, or it is an item at the column and the owner is a key. -/
def belongs (owner : Nat) (underKey : Bool) (line : List Char) : Bool :=
  let indent := Text.indentation line
  let body := Text.trimStart line
  Text.isBlankText line || owner < indent
    || (underKey && indent == owner && (['-', ' '].isPrefixOf body || Text.trimEnd body == ['-']))

def dropBlankEnd (lines : List SourceLine) : List SourceLine :=
  (lines.reverse.dropWhile fun line => Text.isBlankText line.text).reverse

def bodyOf (owner : Nat) (underKey : Bool) (queue : List SourceLine) : List SourceLine :=
  dropBlankEnd (queue.takeWhile fun line => belongs owner underKey line.text)

theorem length_bodyOf_le (owner : Nat) (underKey : Bool) (queue : List SourceLine) :
    (bodyOf owner underKey queue).length ≤ queue.length := by
  have h1 := (List.takeWhile_prefix (l := queue) fun line => belongs owner underKey line.text).length_le
  have h2 := (List.dropWhile_suffix
    (l := (queue.takeWhile fun line => belongs owner underKey line.text).reverse)
    fun line => Text.isBlankText line.text).length_le
  simp only [List.length_reverse] at h2
  simp only [bodyOf, dropBlankEnd, List.length_reverse]
  omega

def leastIndentation (lines : List SourceLine) : Option Nat :=
  ((lines.filter fun line => !Text.isBlankText line.text).map
    fun line => Text.indentation line.text).min?

/-- Moves lines so that the least indented one starts at a column; blank lines become empty. -/
def reindent (column : Nat) (lines : List SourceLine) : List SourceLine :=
  let least := (leastIndentation lines).getD column
  lines.map fun line =>
    if Text.isBlankText line.text then { line with text := [] }
    else
      { line with
        text := Text.spaces (Text.indentation line.text + column - least) ++ Text.trimStart line.text }

theorem length_reindent (column : Nat) (lines : List SourceLine) :
    (reindent column lines).length = lines.length := by
  simp [reindent]

def nameLines (column : Nat) : List String → List (List Char)
  | [] => []
  | name :: names => (Text.spaces column ++ name.toList ++ [':']) :: nameLines (column + 2) names

def appendLast (cs : List Char) : List (List Char) → List (List Char)
  | [] => []
  | [line] => [line ++ cs]
  | line :: lines => line :: appendLast cs lines

def appendFirst (cs : List Char) : List (List Char) → List (List Char)
  | [] => []
  | line :: lines => (line ++ cs) :: lines

/-- The lines in front of a block: after a key the functions start on a line of their own, and without
one the first of them takes the place of the value. -/
def blockHeader (layout : Layout) (functions : List String) (indicator : Option (List Char)) :
    List (List Char) :=
  let announce (lines : List (List Char)) :=
    match indicator with
    | some text => appendLast (' ' :: text) lines
    | none => lines
  match layout.keyColumn with
  | some column =>
    announce ((Text.trimEnd layout.lead ++ layout.trailing) :: nameLines (column + 2) functions)
  | none =>
    let lines := match functions with
      | [] => []
      | name :: names =>
        (layout.lead ++ name.toList ++ [':']) :: nameLines (layout.lead.length + 2) names
    let lines := announce lines
    if Text.isBlankText layout.trailing then lines else appendFirst layout.trailing lines

def blockColumn (layout : Layout) (functions : List String) : Nat :=
  let start := match layout.keyColumn with
    | some column => column + 2
    | none => layout.lead.length
  start + 2 * functions.length

end CloudTemplate.Shorthand
