import CloudTemplate.Shorthand.Passes
import CloudTemplate.Shorthand.Expansion
import CloudTemplate.Shorthand.Block
/-! Normalization of documents: shorthand tags are written out, so that what is left is plain YAML. The
lines of a document wait in a queue; a step takes one line with the lines that belong to it and puts
out the lines they become. Lines that may hold tags themselves go back into the queue, reindented. -/
namespace CloudTemplate.Shorthand

inductive LineCause where
  | flow (fault : FlowFault)
  | neverClosed
  | noBlock (functions : List String)
  deriving DecidableEq, Repr

structure LineFault where
  line : Nat
  cause : LineCause
  deriving DecidableEq, Repr

def LineCause.message : LineCause → String
  | .flow fault => fault.message
  | .neverClosed => "flow collection is never closed"
  | .noBlock functions => " ".intercalate functions ++ " has no argument"

def LineFault.message (fault : LineFault) : String :=
  "Malformed shorthand at line " ++ toString fault.line ++ ": " ++ fault.cause.message

def splitColonSpace : List Char → Option (List Char × List Char)
  | [] => none
  | ':' :: ' ' :: cs => some ([], cs)
  | c :: cs => (splitColonSpace cs).map fun split => (c :: split.1, split.2)

def isLongName (name : List Char) : Bool :=
  name == "Ref".toList || name == "Condition".toList
    || ("Fn::".toList.isPrefixOf name
      && (let rest := name.drop 4; !rest.isEmpty && rest.all Char.isAlphanum))

def splitLongForm (value : List Char) : Option (String × List Char) :=
  let split := match splitColonSpace value with
    | some split => some split
    | none => if value.getLast? = some ':' then some (value.dropLast, []) else none
  match split with
  | some (name, argument) => if isLongName name then some (String.ofList name, argument) else none
  | none => none

structure Outcome where
  lines : List (List Char)
  queue : List SourceLine
  deriving DecidableEq, Repr

/-- Puts out a line whose value has been expanded. A chain of functions takes the lines that belong to
its line: as they are after the indicator of a block scalar, and else for another step. -/
def place (options : Options) (number : Nat) (layout : Layout) (expansion : Expansion)
    (queue : List SourceLine) : Except LineFault Outcome :=
  match expansion with
  | .unchanged => .ok ⟨[layout.text], queue⟩
  | .inline value =>
    if options.isEnabled .elongate || !hasMark layout.value then
      .ok ⟨[layout.lead ++ value ++ layout.trailing], queue⟩
    else .ok ⟨[layout.text], queue⟩
  | .block functions indicator =>
    if !options.isEnabled .multiline then .ok ⟨[layout.text], queue⟩
    else
      let body := bodyOf layout.ownerColumn layout.keyColumn.isSome queue
      let rest := queue.drop body.length
      let header := blockHeader layout functions indicator
      let moved := reindent (blockColumn layout functions) body
      if indicator.isSome then .ok ⟨header ++ moved.map SourceLine.text, rest⟩
      else if body.isEmpty then .error ⟨number, .noBlock functions⟩
      else .ok ⟨header, moved ++ rest⟩

def pieceOf (text : List Char) : List Char :=
  let layout := Layout.of text
  Text.trim (layout.lead ++ layout.value)

def isOpen (line : List Char) : Bool := 0 < bracketBalance (Layout.of line).value

/-- Joins the lines of a queue to an open collection until its brackets balance, without comments and
with one space between the pieces: the joined line, the lines taken and the lines left. -/
def joinFlow (joined : List Char) : List SourceLine →
    Option (List Char × List SourceLine × List SourceLine)
  | [] => none
  | line :: queue =>
    let piece := pieceOf line.text
    let longer := if piece.isEmpty then joined else joined ++ ' ' :: piece
    if piece.isEmpty || isOpen longer then
      (joinFlow longer queue).map fun (text, taken, rest) => (text, line :: taken, rest)
    else some (longer, [line], queue)

inductive Form where
  | blockScalar
  | longForm (name : String) (argument : List Char)
  | openFlow
  | other
  deriving DecidableEq, Repr

def Form.of (options : Options) (layout : Layout) : Form :=
  if isBlockIndicator layout.value then .blockScalar
  else
    match if options.isEnabled .correctLong && layout.keyColumn.isSome then splitLongForm layout.value
      else none with
    | some (name, argument) => .longForm name argument
    | none => if opensFlow layout.value && 0 < bracketBalance layout.value then .openFlow else .other

def numbered (number : Nat) (result : Except FlowFault Expansion) : Except LineFault Expansion :=
  match result with
  | .ok expansion => .ok expansion
  | .error fault => .error ⟨number, .flow fault⟩

def settle (options : Options) (number : Nat) (text : List Char) (queue : List SourceLine) :
    Except LineFault Outcome :=
  let layout := Layout.of text
  match Form.of options layout with
  | .blockScalar =>
    let body := bodyOf layout.ownerColumn false queue
    .ok ⟨text :: body.map SourceLine.text, queue.drop body.length⟩
  | .longForm name argument => do
    let expansion ← numbered number (expandLongForm name argument)
    place options number layout expansion queue
  | _ => do
    let expansion ← numbered number (expandValue layout.value)
    place options number layout expansion queue

/-- Treats the first line of a queue. A collection that stays open is joined with the lines after it,
which are put out as they are when there is no mark in any of them. -/
def step (options : Options) (line : SourceLine) (queue : List SourceLine) : Except LineFault Outcome :=
  let layout := Layout.of line.text
  if Form.of options layout = .openFlow then
    if !options.isEnabled .multiline then .ok ⟨[line.text], queue⟩
    else
      match joinFlow (layout.lead ++ layout.value) queue with
      | some (joined, taken, rest) =>
        if hasMark joined then settle options line.number joined rest
        else .ok ⟨line.text :: taken.map SourceLine.text, rest⟩
      | none =>
        if hasMark layout.value then .error ⟨line.number, .neverClosed⟩ else .ok ⟨[line.text], queue⟩
  else settle options line.number line.text queue

theorem length_place_le {options : Options} {number : Nat} {layout : Layout} {expansion : Expansion}
    {queue : List SourceLine} {outcome : Outcome}
    (h : place options number layout expansion queue = .ok outcome) :
    outcome.queue.length ≤ queue.length := by
  cases expansion with
  | unchanged => cases h; exact Nat.le_refl _
  | inline value =>
    simp only [place] at h
    split at h <;> cases h <;> exact Nat.le_refl _
  | block functions indicator =>
    have hbody := length_bodyOf_le layout.ownerColumn layout.keyColumn.isSome queue
    simp only [place] at h
    split at h
    · cases h
      exact Nat.le_refl _
    · split at h
      · cases h
        simp
      · split at h
        · contradiction
        · cases h
          simp only [List.length_append, length_reindent, List.length_drop]
          omega

theorem length_settle_le {options : Options} {number : Nat} {text : List Char}
    {queue : List SourceLine} {outcome : Outcome}
    (h : settle options number text queue = .ok outcome) :
    outcome.queue.length ≤ queue.length := by
  unfold settle at h
  simp only [bind, Except.bind] at h
  repeat' split at h
  all_goals first
    | contradiction
    | exact length_place_le h
    | (cases h; simp)

theorem length_joinFlow_le {joined text : List Char} {queue taken rest : List SourceLine}
    (h : joinFlow joined queue = some (text, taken, rest)) : rest.length ≤ queue.length := by
  induction queue generalizing joined text taken with
  | nil => simp [joinFlow] at h
  | cons line queue ih =>
    rw [joinFlow] at h
    generalize (if (pieceOf line.text).isEmpty then joined else joined ++ ' ' :: pieceOf line.text)
      = longer at h
    simp only at h
    split at h
    · obtain ⟨⟨a, b, c⟩, hjoin, heq⟩ := Option.map_eq_some_iff.1 h
      cases heq
      exact Nat.le_succ_of_le (ih hjoin)
    · cases h
      exact Nat.le_succ _

theorem length_step_le {options : Options} {line : SourceLine} {queue : List SourceLine}
    {outcome : Outcome} (h : step options line queue = .ok outcome) :
    outcome.queue.length ≤ queue.length := by
  simp only [step] at h
  split at h
  · split at h
    · cases h
      exact Nat.le_refl _
    · split at h
      · rename_i hjoin
        have hrest := length_joinFlow_le hjoin
        split at h
        · exact Nat.le_trans (length_settle_le h) hrest
        · cases h
          exact hrest
      · split at h
        · contradiction
        · cases h
          exact Nat.le_refl _
  · exact length_settle_le h

def normalizeLines (options : Options) : List SourceLine → Except LineFault (List (List Char))
  | [] => .ok []
  | line :: queue =>
    match h : step options line queue with
    | .error fault => .error fault
    | .ok outcome =>
      have := length_step_le h
      match normalizeLines options outcome.queue with
      | .error fault => .error fault
      | .ok lines => .ok (outcome.lines ++ lines)
termination_by queue => queue.length

def splitLines : List Char → List (List Char)
  | [] => [[]]
  | c :: cs =>
    if c = '\n' then [] :: splitLines cs
    else
      match splitLines cs with
      | [] => [[c]]
      | line :: lines => (c :: line) :: lines

def joinLines (lines : List (List Char)) : List Char := ['\n'].intercalate lines

/-- Single and double quotes enclose strings alike; the normal form has double ones only. -/
def doubleQuotes (cs : List Char) : List Char := cs.map fun c => if c = '\'' then '"' else c

def numberLines (first : Nat) : List (List Char) → List SourceLine
  | [] => []
  | text :: rest => ⟨first, text⟩ :: numberLines (first + 1) rest

def normalizeText (options : Options) (cs : List Char) : Except LineFault (List Char) :=
  match normalizeLines options (numberLines 1 (splitLines (doubleQuotes cs))) with
  | .error fault => .error fault
  | .ok lines => .ok (joinLines lines)

def normalize (options : Options) (text : String) : Except LineFault String :=
  match normalizeText options text.toList with
  | .error fault => .error fault
  | .ok cs => .ok (String.ofList cs)

end CloudTemplate.Shorthand
