import CloudTemplate.Proofs.Outcome
import CloudTemplate.Proofs.Shorthand.Outcomes
import Mathlib.Algebra.GroupWithZero.Nat
/-! Where the lines of a normalized document come from. A run is followed with an account of the lines of the document
that go into each line put out; without the account it is the run itself. The lines of the document are taken in order,
so the account tells how far a line that comes from one of them has moved from its place. -/
namespace CloudTemplate.Shorthand

/-- A line put out, and what it is made of: lines of the document, so many from the one of a number on. A line that is
added, such as the name of a function in front of its block, is made of none. -/
structure TracedLine where
  number : Nat
  taken : Nat
  text : List Char
  deriving DecidableEq, Repr

structure TracedOutcome where
  lines : List TracedLine
  queue : List SourceLine
  deriving DecidableEq, Repr

def TracedOutcome.erase (outcome : TracedOutcome) : Outcome := ⟨outcome.lines.map TracedLine.text, outcome.queue⟩

def tracedHeader (number taken : Nat) : List (List Char) → List TracedLine
  | [] => []
  | text :: texts => ⟨number, taken, text⟩ :: texts.map fun text => ⟨number, 0, text⟩

def tracedBody (lines : List SourceLine) : List TracedLine := lines.map fun line => ⟨line.number, 1, line.text⟩

def tracePlace (options : Options) (number taken : Nat) (layout : Layout) (expansion : Expansion)
    (queue : List SourceLine) : Except LineFault TracedOutcome :=
  match expansion with
  | .unchanged => .ok ⟨[⟨number, taken, layout.text⟩], queue⟩
  | .inline value =>
    if options.isEnabled .elongate || !hasMark layout.value then
      .ok ⟨[⟨number, taken, layout.lead ++ value ++ layout.trailing⟩], queue⟩
    else .ok ⟨[⟨number, taken, layout.text⟩], queue⟩
  | .block functions indicator =>
    if !options.isEnabled .multiline then .ok ⟨[⟨number, taken, layout.text⟩], queue⟩
    else
      let body := bodyOf layout.ownerColumn layout.keyColumn.isSome queue
      let rest := queue.drop body.length
      let header := tracedHeader number taken (blockHeader layout functions indicator)
      let moved := reindent (blockColumn layout functions) body
      if indicator.isSome then .ok ⟨header ++ tracedBody moved, rest⟩
      else if body.isEmpty then .error ⟨number, .noBlock functions⟩
      else .ok ⟨header, moved ++ rest⟩

def traceSettle (options : Options) (number taken : Nat) (text : List Char) (queue : List SourceLine) :
    Except LineFault TracedOutcome :=
  let layout := Layout.of text
  match Form.of options layout with
  | .blockScalar =>
    let body := bodyOf layout.ownerColumn false queue
    .ok ⟨⟨number, taken, text⟩ :: tracedBody body, queue.drop body.length⟩
  | .longForm name argument => do
    let expansion ← numbered number (expandLongForm name argument)
    tracePlace options number taken layout expansion queue
  | _ => do
    let expansion ← numbered number (expandValue layout.value)
    tracePlace options number taken layout expansion queue

def traceStep (options : Options) (line : SourceLine) (queue : List SourceLine) : Except LineFault TracedOutcome :=
  let layout := Layout.of line.text
  if Form.of options layout = .openFlow then
    if !options.isEnabled .multiline then .ok ⟨tracedBody [line], queue⟩
    else
      match joinFlow (layout.lead ++ layout.value) queue with
      | some (joined, taken, rest) =>
        if hasMark joined then traceSettle options line.number (taken.length + 1) joined rest
        else .ok ⟨tracedBody (line :: taken), rest⟩
      | none =>
        if hasMark layout.value then .error ⟨line.number, .neverClosed⟩ else .ok ⟨tracedBody [line], queue⟩
  else traceSettle options line.number 1 line.text queue

section Erasure

variable {options : Options} {number taken : Nat} {queue : List SourceLine}

@[simp] theorem map_text_tracedHeader (number taken : Nat) (texts : List (List Char)) :
    (tracedHeader number taken texts).map TracedLine.text = texts := by
  cases texts with
  | nil => rfl
  | cons text texts =>
    rw [tracedHeader, List.map_cons, List.map_map]
    exact congrArg (text :: ·) (List.map_id texts)

@[simp] theorem map_text_tracedBody (lines : List SourceLine) :
    (tracedBody lines).map TracedLine.text = lines.map SourceLine.text := by
  simp [tracedBody]

theorem erase_tracePlace (layout : Layout) (expansion : Expansion) :
    (tracePlace options number taken layout expansion queue).map TracedOutcome.erase =
      place options number layout expansion queue := by
  cases expansion with
  | unchanged => rfl
  | inline value =>
    simp only [tracePlace, place]
    split <;> rfl
  | block functions indicator =>
    simp only [tracePlace, place]
    split
    · rfl
    · split
      · simp [Except.map, TracedOutcome.erase]
      · split
        · rfl
        · simp [Except.map, TracedOutcome.erase]

theorem erase_traceSettle (text : List Char) :
    (traceSettle options number taken text queue).map TracedOutcome.erase = settle options number text queue := by
  have hplace (result : Except FlowFault Expansion) :
      ((numbered number result).bind fun expansion =>
          tracePlace options number taken (Layout.of text) expansion queue).map TracedOutcome.erase =
        (numbered number result).bind fun expansion => place options number (Layout.of text) expansion queue := by
    cases result with
    | error fault => rfl
    | ok expansion => exact erase_tracePlace (Layout.of text) expansion
  simp only [traceSettle, settle]
  cases Form.of options (Layout.of text) with
  | blockScalar => simp [Except.map, TracedOutcome.erase]
  | longForm name argument => exact hplace _
  | openFlow => exact hplace _
  | other => exact hplace _

theorem erase_traceStep (line : SourceLine) :
    (traceStep options line queue).map TracedOutcome.erase = step options line queue := by
  simp only [traceStep, step]
  split
  · split
    · rfl
    · cases joinFlow ((Layout.of line.text).lead ++ (Layout.of line.text).value) queue with
      | none =>
        dsimp only
        split <;> rfl
      | some result =>
        dsimp only
        split
        · exact erase_traceSettle _
        · simp [Except.map, TracedOutcome.erase]
  · exact erase_traceSettle line.text

theorem step_of_traceStep {line : SourceLine} {outcome : TracedOutcome}
    (h : traceStep options line queue = .ok outcome) : step options line queue = .ok outcome.erase := by
  rw [← erase_traceStep, h]
  rfl

end Erasure

def traceLines (options : Options) : List SourceLine → Except LineFault (List TracedLine)
  | [] => .ok []
  | line :: queue =>
    match h : traceStep options line queue with
    | .error fault => .error fault
    | .ok outcome =>
      have : outcome.queue.length ≤ queue.length := length_step_le (step_of_traceStep h)
      (traceLines options outcome.queue).map (outcome.lines ++ ·)
termination_by queue => queue.length

def traceText (options : Options) (cs : List Char) : Except LineFault (List TracedLine) :=
  traceLines options (numberLines 1 (splitLines (doubleQuotes cs)))

theorem traceLines_nil (options : Options) : traceLines options [] = .ok [] := by
  rw [traceLines]

theorem traceLines_cons (options : Options) (line : SourceLine) (queue : List SourceLine) :
    traceLines options (line :: queue) =
      match traceStep options line queue with
      | .error fault => .error fault
      | .ok outcome => (traceLines options outcome.queue).map (outcome.lines ++ ·) := by
  rw [traceLines]
  split <;> simp_all

/-- A run without its account is the run. -/
theorem erase_traceLines (options : Options) (queue : List SourceLine) :
    (traceLines options queue).map (·.map TracedLine.text) = normalizeLines options queue := by
  induction queue using traceLines.induct options with
  | case1 =>
    rw [traceLines_nil, normalizeLines_nil]
    rfl
  | case2 line queue fault hstep =>
    rw [traceLines_cons, normalizeLines_cons, ← erase_traceStep, hstep]
    rfl
  | case3 line queue outcome hstep _ ih =>
    rw [traceLines_cons, normalizeLines_cons, ← erase_traceStep, hstep]
    dsimp only [Except.map, TracedOutcome.erase] at ih ⊢
    rw [← ih]
    cases traceLines options outcome.queue <;> simp

def IsNumbered : Nat → List SourceLine → Prop
  | _, [] => True
  | number, line :: queue => line.number = number ∧ IsNumbered (number + 1) queue

theorem isNumbered_append {number : Nat} {lines more : List SourceLine} :
    IsNumbered number (lines ++ more) ↔ IsNumbered number lines ∧ IsNumbered (number + lines.length) more := by
  induction lines generalizing number with
  | nil => simp [IsNumbered]
  | cons line lines ih => simp [IsNumbered, ih, and_assoc, Nat.add_right_comm, ← Nat.add_assoc]

theorem isNumbered_numberLines (first : Nat) (lines : List (List Char)) : IsNumbered first (numberLines first lines) := by
  induction lines generalizing first with
  | nil => trivial
  | cons line lines ih => exact ⟨rfl, ih (first + 1)⟩

/-- Lines that are moved keep their numbers. -/
theorem IsNumbered.map {number : Nat} {lines : List SourceLine} (h : IsNumbered number lines)
    {f : SourceLine → SourceLine} (hf : ∀ line, (f line).number = line.number) : IsNumbered number (lines.map f) := by
  induction lines generalizing number with
  | nil => trivial
  | cons line lines ih => exact ⟨(hf line).trans h.1, ih h.2⟩

theorem IsNumbered.reindent {number : Nat} {lines : List SourceLine} (h : IsNumbered number lines) (column : Nat) :
    IsNumbered number (reindent column lines) :=
  h.map fun line => by split <;> rfl

def takenBy (lines : List TracedLine) : Nat := (lines.map TracedLine.taken).sum

@[simp] theorem takenBy_append (lines more : List TracedLine) : takenBy (lines ++ more) = takenBy lines + takenBy more := by
  simp [takenBy]

def IsMadeFrom : Nat → List TracedLine → Prop
  | _, [] => True
  | next, line :: lines => (line.taken = 0 ∨ line.number = next) ∧ IsMadeFrom (next + line.taken) lines

theorem isMadeFrom_append {next : Nat} {lines more : List TracedLine} :
    IsMadeFrom next (lines ++ more) ↔ IsMadeFrom next lines ∧ IsMadeFrom (next + takenBy lines) more := by
  induction lines generalizing next with
  | nil => simp [IsMadeFrom, takenBy]
  | cons line lines ih => simp [IsMadeFrom, ih, takenBy, and_assoc, Nat.add_assoc]

theorem isMadeFrom_tracedHeader (number taken : Nat) (texts : List (List Char)) :
    IsMadeFrom number (tracedHeader number taken texts) := by
  have hadded (next : Nat) (texts : List (List Char)) :
      IsMadeFrom next (texts.map fun text => ⟨number, 0, text⟩) := by
    induction texts with
    | nil => trivial
    | cons text texts ih => exact ⟨.inl rfl, ih⟩
  cases texts with
  | nil => trivial
  | cons text texts => exact ⟨.inr rfl, hadded _ texts⟩

theorem takenBy_tracedHeader (number taken : Nat) {texts : List (List Char)} (h : texts ≠ []) :
    takenBy (tracedHeader number taken texts) = taken := by
  obtain ⟨text, texts, rfl⟩ := List.exists_cons_of_ne_nil h
  simp [takenBy, tracedHeader, Function.comp_def]

theorem isMadeFrom_tracedBody {next : Nat} {lines : List SourceLine} (h : IsNumbered next lines) :
    IsMadeFrom next (tracedBody lines) := by
  induction lines generalizing next with
  | nil => trivial
  | cons line lines ih => exact ⟨.inr h.1, ih h.2⟩

@[simp] theorem takenBy_tracedBody (lines : List SourceLine) : takenBy (tracedBody lines) = lines.length := by
  simp [takenBy, tracedBody, Function.comp_def]

structure TracedOutcome.Accounts (outcome : TracedOutcome) (next : Nat) : Prop where
  lines : IsMadeFrom next outcome.lines
  queue : IsNumbered (next + takenBy outcome.lines) outcome.queue

section Steps

variable {options : Options} {number taken : Nat} {queue : List SourceLine} {outcome : TracedOutcome}

theorem accounts_line (text : List Char) (hqueue : IsNumbered (number + taken) queue) :
    TracedOutcome.Accounts ⟨[⟨number, taken, text⟩], queue⟩ number where
  lines := ⟨.inr rfl, trivial⟩
  queue := by simpa [takenBy] using hqueue

/-- The body of a line and what is left of the queue are numbered one after the other. -/
theorem isNumbered_bodyOf (hqueue : IsNumbered number queue) (owner : Nat) (underKey : Bool) :
    IsNumbered number (bodyOf owner underKey queue) ∧
      IsNumbered (number + (bodyOf owner underKey queue).length) (queue.drop (bodyOf owner underKey queue).length) := by
  rw [← isNumbered_append, bodyOf_append_drop]
  exact hqueue

theorem accounts_tracePlace {layout : Layout} {expansion : Expansion} (hnamed : expansion.IsNamed)
    (h : tracePlace options number taken layout expansion queue = .ok outcome)
    (hqueue : IsNumbered (number + taken) queue) : outcome.Accounts number := by
  cases expansion with
  | unchanged =>
    cases h
    exact accounts_line _ hqueue
  | inline value =>
    simp only [tracePlace] at h
    split at h <;> cases h <;> exact accounts_line _ hqueue
  | block functions indicator =>
    -- Body and rest are consecutive, so it is enough that the header is made from the lines before them.
    obtain ⟨hbody, hrest⟩ := isNumbered_bodyOf hqueue layout.ownerColumn layout.keyColumn.isSome
    have hmoved := hbody.reindent (blockColumn layout functions)
    have hlength := length_reindent (blockColumn layout functions)
      (bodyOf layout.ownerColumn layout.keyColumn.isSome queue)
    have hheader := takenBy_tracedHeader number taken (blockHeader_ne_nil layout hnamed indicator)
    have hmade := isMadeFrom_tracedHeader number taken (blockHeader layout functions indicator)
    simp only [tracePlace] at h
    split at h
    · cases h
      exact accounts_line _ hqueue
    · split at h
      · cases h
        refine ⟨isMadeFrom_append.2 ⟨hmade, ?_⟩, ?_⟩
        · rw [hheader]
          exact isMadeFrom_tracedBody hmoved
        · rw [takenBy_append, hheader, takenBy_tracedBody, hlength, ← Nat.add_assoc]
          exact hrest
      · split at h
        · contradiction
        · cases h
          refine ⟨hmade, ?_⟩
          rw [hheader, isNumbered_append, hlength]
          exact ⟨hmoved, hrest⟩

theorem accounts_traceSettle {text : List Char} (h : traceSettle options number taken text queue = .ok outcome)
    (hqueue : IsNumbered (number + taken) queue) : outcome.Accounts number := by
  have hplace {result : Except FlowFault Expansion} (hnamed : ∀ expansion, result = .ok expansion → expansion.IsNamed)
      (h : (numbered number result).bind (fun expansion =>
        tracePlace options number taken (Layout.of text) expansion queue) = .ok outcome) : outcome.Accounts number := by
    cases result with
    | error fault => contradiction
    | ok expansion => exact accounts_tracePlace (hnamed expansion rfl) h hqueue
  simp only [traceSettle] at h
  split at h
  · obtain ⟨hbody, hrest⟩ := isNumbered_bodyOf hqueue (Layout.of text).ownerColumn false
    cases h
    refine ⟨⟨.inr rfl, isMadeFrom_tracedBody hbody⟩, ?_⟩
    rw [← List.singleton_append, takenBy_append, takenBy_tracedBody, ← Nat.add_assoc]
    exact hrest
  · exact hplace (fun _ => isNamed_expandLongForm) h
  · exact hplace (fun _ => isNamed_expandValue) h

/-- A step takes its line and those joined to it, then the lines that belong to it; what waits behind is next. -/
theorem accounts_traceStep {line : SourceLine} (h : traceStep options line queue = .ok outcome)
    (hqueue : IsNumbered line.number (line :: queue)) : outcome.Accounts line.number := by
  have hkept {taken rest : List SourceLine} (hsplit : queue = taken ++ rest) :
      TracedOutcome.Accounts ⟨tracedBody (line :: taken), rest⟩ line.number := by
    rw [hsplit, ← List.cons_append, isNumbered_append] at hqueue
    exact ⟨isMadeFrom_tracedBody hqueue.1, by rw [takenBy_tracedBody]; exact hqueue.2⟩
  simp only [traceStep] at h
  split at h
  · split at h
    · cases h
      exact hkept rfl
    · split at h
      · rename_i joined taken rest hjoin
        obtain ⟨hsplit, -⟩ := joinFlow_ok hjoin
        split at h
        · rw [hsplit, ← List.cons_append, isNumbered_append] at hqueue
          exact accounts_traceSettle h hqueue.2
        · cases h
          exact hkept hsplit
      · split at h
        · contradiction
        · cases h
          exact hkept rfl
  · exact accounts_traceSettle h hqueue.2

end Steps

/-- A run takes the lines of its queue one after the other. -/
theorem isMadeFrom_traceLines {options : Options} {next : Nat} {queue : List SourceLine} {lines : List TracedLine}
    (h : traceLines options queue = .ok lines) (hqueue : IsNumbered next queue) : IsMadeFrom next lines := by
  induction queue using traceLines.induct options generalizing next lines with
  | case1 =>
    rw [traceLines_nil] at h
    cases h
    trivial
  | case2 line queue fault hstep =>
    rw [traceLines_cons, hstep] at h
    contradiction
  | case3 line queue outcome hstep _ ih =>
    rw [traceLines_cons, hstep] at h
    obtain ⟨rest, hrest, rfl⟩ := map_eq_ok_iff.1 h
    obtain rfl := hqueue.1
    obtain ⟨hlines, hwaiting⟩ := accounts_traceStep hstep hqueue
    exact isMadeFrom_append.2 ⟨hlines, ih hrest hwaiting⟩

def added (lines : List TracedLine) : Nat := lines.countP (·.taken = 0)

/-- How many lines of a document have none put out for them, as they are joined to others. -/
def joinedAway (lines : List TracedLine) : Nat := (lines.map (·.taken - 1)).sum

theorem length_add_joinedAway (lines : List TracedLine) :
    lines.length + joinedAway lines = takenBy lines + added lines := by
  induction lines with
  | nil => rfl
  | cons line lines ih =>
    simp only [List.length_cons, joinedAway, takenBy, added, List.map_cons, List.sum_cons, List.countP_cons,
      decide_eq_true_eq] at ih ⊢
    split <;> omega

structure TracedLine.IsCopy (line : TracedLine) (cs : List Char) : Prop where
  taken : line.taken = 1
  mem : ⟨line.number, line.text⟩ ∈ numberLines 1 (splitLines (doubleQuotes cs))

/-- A line made of lines of the document stands by as many places below the first of them as lines are added above it,
and by as many above it as lines above it are joined away. -/
theorem length_add_joinedAway_above {options : Options} {cs : List Char} {above below : List TracedLine}
    {here : TracedLine} (h : traceText options cs = .ok (above ++ here :: below)) (hhere : here.taken ≠ 0) :
    above.length + 1 + joinedAway above = here.number + added above := by
  have hmade := isMadeFrom_traceLines h (isNumbered_numberLines 1 _)
  have hnumber : here.number = 1 + takenBy above := (isMadeFrom_append.1 hmade).2.1.resolve_left hhere
  have hlength := length_add_joinedAway above
  omega

/-- A document that is normalized has an account. -/
theorem normalize_eq_ok_iff {options : Options} {text out : String} :
    normalize options text = .ok out ↔
      ∃ lines, traceText options text.toList = .ok lines ∧ String.ofList (joinLines (lines.map TracedLine.text)) = out := by
  rw [normalize, normalizeText, ← erase_traceLines, traceText]
  cases traceLines options (numberLines 1 (splitLines (doubleQuotes text.toList))) with
  | error fault => simp [Except.map]
  | ok lines => simp [Except.map]

/-- Lines put out are single lines. -/
theorem not_mem_lineFeed_traceText {cs : List Char} {lines : List TracedLine} (h : traceText .standard cs = .ok lines) :
    ∀ text ∈ lines.map TracedLine.text, '\n' ∉ text := by
  have hrun : normalizeLines .standard (numberLines 1 (splitLines (doubleQuotes cs))) =
      .ok (lines.map TracedLine.text) := by
    rw [← erase_traceLines, ← traceText, h]
    rfl
  exact single_normalizeLines hrun (areSingle_numberLines 1 _)

end CloudTemplate.Shorthand
