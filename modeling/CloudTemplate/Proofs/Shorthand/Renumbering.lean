import CloudTemplate.Proofs.Shorthand.Lines
/-! The numbers of lines count for nothing but the line that a fault names: a run over renumbered lines puts out the
same lines, and its fault is renumbered too. -/
namespace CloudTemplate.Shorthand

def SourceLine.renumber (f : Nat → Nat) (line : SourceLine) : SourceLine := { line with number := f line.number }

def LineFault.renumber (f : Nat → Nat) (fault : LineFault) : LineFault := { fault with line := f fault.line }

def Outcome.renumber (f : Nat → Nat) (outcome : Outcome) : Outcome :=
  { outcome with queue := outcome.queue.map (.renumber f) }

def renumberResult (f : Nat → Nat) : Except LineFault Outcome → Except LineFault Outcome
  | .ok outcome => .ok (outcome.renumber f)
  | .error fault => .error (fault.renumber f)

variable (f : Nat → Nat)

@[simp] theorem SourceLine.text_renumber (line : SourceLine) : (line.renumber f).text = line.text := rfl

@[simp] theorem map_text_renumber (lines : List SourceLine) :
    (lines.map (.renumber f)).map SourceLine.text = lines.map SourceLine.text := by
  rw [List.map_map]
  rfl

@[simp] theorem bodyOf_renumber (owner : Nat) (underKey : Bool) (queue : List SourceLine) :
    bodyOf owner underKey (queue.map (.renumber f)) = (bodyOf owner underKey queue).map (.renumber f) := by
  simp only [bodyOf, dropBlankEnd, List.takeWhile_map, ← List.map_reverse, List.dropWhile_map]
  rfl

@[simp] theorem leastIndentation_renumber (lines : List SourceLine) :
    leastIndentation (lines.map (.renumber f)) = leastIndentation lines := by
  simp only [leastIndentation, List.filter_map, List.map_map]
  rfl

@[simp] theorem reindent_renumber (column : Nat) (lines : List SourceLine) :
    reindent column (lines.map (.renumber f)) = (reindent column lines).map (.renumber f) := by
  simp only [reindent, leastIndentation_renumber, List.map_map]
  refine List.map_congr_left fun line _ => ?_
  rw [Function.comp_apply, Function.comp_apply, apply_ite (SourceLine.renumber f)]
  rfl

theorem joinFlow_renumber (joined : List Char) (queue : List SourceLine) :
    joinFlow joined (queue.map (.renumber f)) =
      (joinFlow joined queue).map fun (text, taken, rest) => (text, taken.map (.renumber f), rest.map (.renumber f)) := by
  induction queue generalizing joined with
  | nil => rfl
  | cons line queue ih =>
    rw [List.map_cons, joinFlow, joinFlow, SourceLine.text_renumber]
    generalize (if (pieceOf line.text).isEmpty then joined else joined ++ ' ' :: pieceOf line.text) = longer
    dsimp only
    split
    · rw [ih longer, Option.map_map, Option.map_map]
      rfl
    · rfl

theorem place_renumber (options : Options) (number : Nat) (layout : Layout) (expansion : Expansion)
    (queue : List SourceLine) :
    place options (f number) layout expansion (queue.map (.renumber f)) =
      renumberResult f (place options number layout expansion queue) := by
  cases expansion with
  | unchanged => rfl
  | inline value =>
    simp only [place]
    split <;> rfl
  | block functions indicator =>
    simp only [place, bodyOf_renumber, reindent_renumber, map_text_renumber, List.length_map, List.isEmpty_map,
      ← List.map_drop, ← List.map_append]
    split
    · rfl
    · split
      · rfl
      · split <;> rfl

theorem settle_renumber (options : Options) (number : Nat) (text : List Char) (queue : List SourceLine) :
    settle options (f number) text (queue.map (.renumber f)) = renumberResult f (settle options number text queue) := by
  have hplace (result : Except FlowFault Expansion) :
      (numbered (f number) result).bind (fun expansion =>
          place options (f number) (Layout.of text) expansion (queue.map (.renumber f))) =
        renumberResult f ((numbered number result).bind fun expansion =>
          place options number (Layout.of text) expansion queue) := by
    cases result with
    | error fault => rfl
    | ok expansion => exact place_renumber f options number (Layout.of text) expansion queue
  simp only [settle]
  split
  · simp only [bodyOf_renumber, map_text_renumber, List.length_map, ← List.map_drop]
    rfl
  · exact hplace _
  · exact hplace _

theorem step_renumber (options : Options) (line : SourceLine) (queue : List SourceLine) :
    step options (line.renumber f) (queue.map (.renumber f)) = renumberResult f (step options line queue) := by
  obtain ⟨number, text⟩ := line
  change step options ⟨f number, text⟩ (queue.map (.renumber f)) = _
  simp only [step, joinFlow_renumber]
  split
  · split
    · rfl
    · cases joinFlow ((Layout.of text).lead ++ (Layout.of text).value) queue with
      | none =>
        dsimp only [Option.map_none]
        rw [apply_ite (renumberResult f)]
        rfl
      | some result =>
        obtain ⟨joined, taken, rest⟩ := result
        dsimp only [Option.map_some]
        split
        · exact settle_renumber f options number joined rest
        · rw [map_text_renumber]
          rfl
  · exact settle_renumber f options number text queue

/-- A run over renumbered lines. -/
theorem normalizeLines_renumber (options : Options) (queue : List SourceLine) :
    normalizeLines options (queue.map (.renumber f)) = (normalizeLines options queue).mapError (.renumber f) := by
  induction queue using runInduction options with
  | nil =>
    rw [List.map_nil, normalizeLines_nil]
    rfl
  | fault line queue fault hstep =>
    rw [List.map_cons, normalizeLines_cons, normalizeLines_cons, step_renumber, hstep]
    rfl
  | next line queue outcome hstep ih =>
    rw [List.map_cons, normalizeLines_cons, normalizeLines_cons, step_renumber, hstep]
    dsimp only [renumberResult, Outcome.renumber]
    rw [ih]
    cases normalizeLines options outcome.queue <;> rfl

/-- Lines numbered from another line on. -/
theorem numberLines_add (first offset : Nat) (lines : List (List Char)) :
    numberLines (first + offset) lines = (numberLines first lines).map (.renumber (· + offset)) := by
  induction lines generalizing first with
  | nil => rfl
  | cons line lines ih =>
    rw [numberLines, numberLines, List.map_cons, ← ih, Nat.add_right_comm]
    rfl

theorem numberLines_append (first : Nat) (lines more : List (List Char)) :
    numberLines first (lines ++ more) = numberLines first lines ++ numberLines (first + lines.length) more := by
  induction lines generalizing first with
  | nil => rfl
  | cons line lines ih =>
    rw [List.cons_append, numberLines, numberLines, ih, List.length_cons, Nat.add_right_comm, Nat.add_assoc]
    rfl

end CloudTemplate.Shorthand
