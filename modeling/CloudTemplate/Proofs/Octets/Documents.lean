import CloudTemplate.Proofs.Octets.Flows
import CloudTemplate.Proofs.Octets.Queues
import CloudTemplate.Proofs.Shorthand.Sections
/-! Documents normalized with cursors, checked slices and checked differences. A run has the outcome of the normalization
that reads lists of characters, so it neither crashes nor goes on for good: `cursors_end_in_bounds`. -/
namespace CloudTemplate.Octets
open Text Shorthand

def Scanned.expansion (left : List Char) : Scanned → Expansion
  | .waiting functions indicator => .block functions indicator
  | scanned => .inline (scanned.text ++ left)

@[simp] theorem Scanned.expansion_ofFragment (left : List Char) (fragment : Fragment) :
    (ofFragment fragment).expansion left = fragment.expansion left := by
  cases fragment <;> rfl

def scanValue (text : List Char) : Scan (Scanned × Nat) := scanNode text (2 * text.length + 1) false 0

def rewriteValue (value : List Char) : Scan Expansion :=
  if hasMark value && opensFlow value then do
    let (scanned, pos) ← scanValue value
    let left ← slice value pos (units value).length
    pure (scanned.expansion left)
  else pure .unchanged

def rewriteLongForm (name : String) (argument : List Char) : Scan Expansion :=
  let argument := trim argument
  if argument.isEmpty then pure (.block [name] none)
  else if isBlockIndicator argument then pure (.block [name] (some argument))
  else do
    let (scanned, pos) ← scanValue argument
    if pos < byteLength argument then do
      let left ← slice argument pos (byteLength argument)
      fail (.textAfterArgument name (String.ofList left))
    else do
      let call ← apply name scanned
      pure (call.expansion [])

theorem scanValue_eq (text : List Char) : scanValue text = lift (placed text) (flowAt false text) := by
  have hnode : scanNode text (2 * text.length + 1) false (offset text text) = lift (placed text) (flowAt false text) :=
    (faithful text _).node (List.suffix_refl text) (Nat.lt_succ_self _)
  rwa [offset_self] at hnode

/-- What is left behind a place, as a slice. -/
theorem slice_left {src left : List Char} (h : left <:+ src) :
    slice (ε := String) src (offset src left) (byteLength src) = .ok left :=
  slice_between h (List.append_nil left)

theorem rewriteValue_eq (value : List Char) : rewriteValue value = lift id (expandValue value) := by
  rw [rewriteValue, expandValue_eq, scanValue_eq]
  cases hmark : hasMark value && opensFlow value with
  | false => rfl
  | true =>
    rw [if_pos rfl, if_pos rfl]
    cases hread : flowAt false value with
    | error fault => rfl
    | ok read =>
      obtain ⟨flow, left⟩ := read
      simp only [lift, placed, ok_bind]
      rw [length_units, slice_left (flow.suffix hread), ok_bind, Scanned.expansion_ofFragment]
      cases hfragment : flow.fragment <;> rfl

theorem rewriteLongForm_eq (name : String) (argument : List Char) :
    rewriteLongForm name argument = lift id (expandLongForm name argument) := by
  rw [rewriteLongForm, expandLongForm_eq]
  generalize trim argument = argument
  dsimp only
  simp only [List.isEmpty_iff]
  split
  · rfl
  · split
    · rfl
    · rw [scanValue_eq]
      cases hread : flowAt false argument with
      | error fault => rfl
      | ok read =>
        obtain ⟨flow, left⟩ := read
        have hleft := flow.suffix hread
        simp only [lift, placed, ok_bind, offset_lt_iff hleft]
        by_cases hnil : left = []
        · rw [if_neg (not_not.2 hnil), if_pos hnil, apply_ofFragment, ok_bind, Scanned.expansion_ofFragment]
          rfl
        · rw [if_pos hnil, if_neg hnil, slice_left hleft]
          rfl

abbrev Job (α : Type) := Run (Nat × String) α

def inLine {α : Type} (number : Nat) : Scan α → Job α
  | .ok a => .ok a
  | .error .crash => .error .crash
  | .error .unfinished => .error .unfinished
  | .error (.fault message) => .error (.fault (number, message))

def report {α : Type} : Except LineFault α → Job α
  | .ok a => .ok a
  | .error fault => .error (.fault (fault.line, fault.cause.message))

def startColumn (cut : LineCut) : Nat :=
  match cut.keyColumn with
  | some column => column + 2
  | none => byteLength cut.lead

def headerAt (cut : LineCut) (functions : List String) (indicator : Option (List Char)) : List (List Char) :=
  let named := match cut.keyColumn with
    | some _ => (trimEnd cut.lead ++ cut.trailing) :: nameLines (startColumn cut) functions
    | none =>
      match functions with
      | [] => []
      | name :: names => (cut.lead ++ name.toList ++ [':']) :: nameLines (startColumn cut + 2) names
  let announced := match indicator with
    | some text => appendLast (' ' :: text) named
    | none => named
  if cut.keyColumn.isNone && !isBlankText cut.trailing then appendFirst cut.trailing announced else announced

def placeAt (options : Options) (number : Nat) (cut : LineCut) (expansion : Expansion) (queue : List SourceLine) :
    Job Outcome :=
  let original := cut.lead ++ cut.value ++ cut.trailing
  match expansion with
  | .unchanged => pure ⟨[original], queue⟩
  | .inline value =>
    if options.isEnabled .elongate || !hasMark cut.value then pure ⟨[cut.lead ++ value ++ cut.trailing], queue⟩
    else pure ⟨[original], queue⟩
  | .block functions indicator =>
    if !options.isEnabled .multiline then pure ⟨[original], queue⟩
    else do
      let (body, rest) ← takeBody cut.ownerColumn cut.keyColumn.isSome queue
      if body.isEmpty && indicator.isNone then .error (.fault (number, (LineCause.noBlock functions).message))
      else do
        let header := headerAt cut functions indicator
        let moved ← reindentAt (startColumn cut + 2 * functions.length) body
        if indicator.isSome then pure ⟨header ++ moved.map SourceLine.text, rest⟩ else pure ⟨header, moved ++ rest⟩

def formAt (options : Options) (cut : LineCut) : Job Form :=
  if isBlockIndicator cut.value then pure .blockScalar
  else
    match if options.isEnabled .correctLong && cut.keyColumn.isSome then splitLongForm cut.value else none with
    | some (name, argument) => pure (.longForm name argument)
    | none =>
      if opensFlow cut.value then do
        let depth ← balance (units cut.value)
        pure (if 0 < depth then .openFlow else .other)
      else pure .other

def stepAt (options : Options) : Nat → Nat → List Char → List SourceLine → Job Outcome
  | 0, _, _, _ => .error .unfinished
  | fuel + 1, number, text, queue => do
    let cut ← cutLine text
    match ← formAt options cut with
    | .blockScalar => do
      let (body, rest) ← takeBody cut.ownerColumn false queue
      pure ⟨text :: body.map SourceLine.text, rest⟩
    | .longForm name argument => do
      let expansion ← inLine number (rewriteLongForm name argument)
      placeAt options number cut expansion queue
    | .openFlow =>
      if !options.isEnabled .multiline then pure ⟨[text], queue⟩
      else do
        match ← joinAt (cut.lead ++ cut.value) 0 queue with
        | some (joined, consumed) => do
          let (taken, rest) ← drain consumed queue
          if hasMark joined then stepAt options fuel number joined rest
          else pure ⟨text :: taken.map SourceLine.text, rest⟩
        | none =>
          if hasMark cut.value then .error (.fault (number, LineCause.neverClosed.message)) else pure ⟨[text], queue⟩
    | .other =>
      if hasMark cut.value && opensFlow cut.value then do
        let expansion ← inLine number (rewriteValue cut.value)
        placeAt options number cut expansion queue
      else pure ⟨[text], queue⟩

def runAt (options : Options) : Nat → List SourceLine → Job (List (List Char))
  | _, [] => pure []
  | 0, _ :: _ => .error .unfinished
  | fuel + 1, line :: queue => do
    let outcome ← stepAt options 2 line.number line.text queue
    let lines ← runAt options fuel outcome.queue
    pure (outcome.lines ++ lines)

def normalizeAt (options : Options) (text : String) : Job String := do
  let queue := numberLines 1 (splitLines (doubleQuotes text.toList))
  let lines ← runAt options queue.length queue
  pure (String.ofList (joinLines lines))

theorem report_bind {α β : Type} (outcome : Except LineFault α) (next : α → Except LineFault β) :
    report (outcome >>= next) = report outcome >>= fun a => report (next a) := by
  cases outcome <;> rfl

theorem inLine_lift (number : Nat) (result : Except FlowFault Expansion) :
    inLine number (lift id result) = report (numbered number result) := by
  cases result <;> rfl

theorem startColumn_ofLayout (line : List Char) :
    startColumn (.ofLayout (Layout.of line)) =
      match (Layout.of line).keyColumn with
      | some column => column + 2
      | none => (Layout.of line).lead.length := by
  rw [startColumn]
  obtain ⟨hkey, hlead⟩ | ⟨key, n, hkey, -⟩ := Layout.key_of line
  · obtain ⟨indent, gaps, hopening⟩ := exists_takeOpening line
    rw [← Layout.opening_of] at hopening
    simp only [hkey, hlead]
    exact ((length_eq_byteLength_iff _).2 (Layout.utf8Size_of_mem_opening hopening)).symm
  · simp only [hkey]

theorem blockColumn_eq (line : List Char) (functions : List String) :
    startColumn (.ofLayout (Layout.of line)) + 2 * functions.length = blockColumn (Layout.of line) functions := by
  rw [startColumn_ofLayout]
  rfl

theorem headerAt_eq (line : List Char) (functions : List String) (indicator : Option (List Char)) :
    headerAt (.ofLayout (Layout.of line)) functions indicator = blockHeader (Layout.of line) functions indicator := by
  simp only [headerAt, startColumn_ofLayout, blockHeader]
  cases (Layout.of line).keyColumn with
  | some column => rfl
  | none => cases functions <;> cases isBlankText (Layout.of line).trailing <;> rfl

theorem placeAt_eq (options : Options) (number : Nat) (line : List Char) (expansion : Expansion)
    (queue : List SourceLine) :
    placeAt options number (.ofLayout (Layout.of line)) expansion queue =
      report (place options number (Layout.of line) expansion queue) := by
  cases expansion with
  | unchanged => rfl
  | inline value =>
    simp only [placeAt, place]
    split <;> rfl
  | block functions indicator =>
    simp only [placeAt, place, LineCut.ownerColumn_ofLayout, blockColumn_eq, headerAt_eq, takeBody_eq, reindentAt_eq,
      ok_bind]
    cases options.isEnabled .multiline with
    | false => rfl
    | true =>
      cases indicator with
      | some text => simp [report]
      | none =>
        cases (bodyOf (Layout.of line).ownerColumn (Layout.of line).keyColumn.isSome queue).isEmpty <;> simp [report]

theorem formAt_eq (options : Options) (layout : Layout) :
    formAt options (.ofLayout layout) = .ok (Form.of options layout) := by
  rw [formAt, Form.of]
  split
  · rfl
  · generalize (if options.isEnabled .correctLong && layout.keyColumn.isSome then splitLongForm layout.value else none) =
      long
    cases long with
    | some split => rfl
    | none =>
      cases hopens : opensFlow layout.value with
      | false => rfl
      | true =>
        dsimp only
        rw [if_pos rfl, balance_units, ok_bind]
        by_cases hdepth : 0 < bracketBalance layout.value <;> simp [hdepth]

theorem stepAt_settle {options : Options} {text : List Char} (h : Form.of options (Layout.of text) ≠ .openFlow)
    (fuel number : Nat) (queue : List SourceLine) :
    stepAt options (fuel + 1) number text queue = report (settle options number text queue) := by
  rw [stepAt, cutLine_eq, ok_bind, formAt_eq, ok_bind, settle]
  cases hform : Form.of options (Layout.of text) with
  | openFlow => contradiction
  | blockScalar =>
    simp only [LineCut.ownerColumn_ofLayout, takeBody_eq, ok_bind]
    rfl
  | longForm name argument =>
    simp only [rewriteLongForm_eq, inLine_lift, placeAt_eq]
    exact (report_bind _ _).symm
  | other =>
    dsimp only
    cases hvalue : hasMark (Layout.of text).value && opensFlow (Layout.of text).value with
    | true =>
      simp only [if_true, rewriteValue_eq, inLine_lift, placeAt_eq]
      exact (report_bind _ _).symm
    | false =>
      have hunchanged : expandValue (Layout.of text).value = .ok .unchanged := by
        rw [expandValue_eq, hvalue, if_neg Bool.false_ne_true]
      have htext : place options number (Layout.of text) .unchanged queue = .ok ⟨[text], queue⟩ := by
        rw [place, Layout.text_of]
      rw [hunchanged, if_neg Bool.false_ne_true]
      exact congrArg report htext.symm

/-- A line to which others have been joined closes its brackets, so a step starts over once at most. -/
theorem stepAt_eq (options : Options) (line : SourceLine) (queue : List SourceLine) :
    stepAt options 2 line.number line.text queue = report (step options line queue) := by
  by_cases hform : Form.of options (Layout.of line.text) = .openFlow
  · rw [stepAt, cutLine_eq, ok_bind, formAt_eq, ok_bind, hform]
    dsimp only
    cases hmultiline : options.isEnabled .multiline with
    | false =>
      simp only [step, hform, hmultiline]
      rfl
    | true =>
      rw [joinAt_eq, ok_bind]
      cases hjoin : joinFlow ((Layout.of line.text).lead ++ (Layout.of line.text).value) queue with
      | none =>
        rw [step_unjoined hform hmultiline hjoin]
        cases hasMark (Layout.of line.text).value <;> rfl
      | some result =>
        obtain ⟨joined, taken, rest⟩ := result
        have hclosed : IsFlat joined := by simpa [isOpen, IsFlat] using (joinFlow_closes hjoin).2
        rw [step_joined hform hmultiline hjoin]
        obtain ⟨rfl, -⟩ := joinFlow_ok hjoin
        simp only [Option.map_some, Nat.zero_add, drain_append, ok_bind,
          stepAt_settle (hclosed.form_ne_openFlow options)]
        cases hasMark joined <;> rfl
  · rw [stepAt_settle hform, step, if_neg hform]

/-- Each step shortens the queue, so there are no more steps than lines. -/
theorem runAt_eq (options : Options) {fuel : Nat} {queue : List SourceLine} (h : queue.length ≤ fuel) :
    runAt options fuel queue = report (normalizeLines options queue) := by
  induction fuel generalizing queue with
  | zero =>
    rw [List.length_eq_zero_iff.1 (Nat.le_zero.1 h), normalizeLines_nil]
    rfl
  | succ fuel ih =>
    cases queue with
    | nil =>
      rw [normalizeLines_nil]
      rfl
    | cons line queue =>
      rw [runAt, stepAt_eq, normalizeLines_cons]
      cases hstep : step options line queue with
      | error fault => rfl
      | ok outcome =>
        have hlength := (length_step_le hstep).trans (Nat.le_of_succ_le_succ h)
        simp only [report, ok_bind, ih hlength]
        cases normalizeLines options outcome.queue <;> rfl

theorem normalizeAt_eq (options : Options) (text : String) :
    normalizeAt options text = report (Shorthand.normalize options text) := by
  rw [normalizeAt, runAt_eq options (Nat.le_refl _), Shorthand.normalize, normalizeText]
  cases normalizeLines options (numberLines 1 (splitLines (doubleQuotes text.toList))) <;> rfl

theorem ends_lift {α β : Type} (f : α → β) (outcome : Except FlowFault α) : (lift f outcome).Ends := by
  cases outcome <;> trivial

theorem ends_report {α : Type} (outcome : Except LineFault α) : (report outcome).Ends := by
  cases outcome <;> trivial

/-- Taking a line apart, writing out a value or a long form and normalizing a document end with a result or a fault, and it
is that of the reading of characters: no access or slice is out of range, no slice cuts a character in two and no difference
falls short. A quoted value has two quotes to lose, and lines are moved by what is left above the least indented one. The
turns of the loops over items and pairs lead on, although a plain scalar and a plain key may be empty. -/
theorem cursors_end_in_bounds :
    (∀ line, (cutLine (ε := Nat × String) line).Ends ∧
      cutLine (ε := Nat × String) line = .ok (.ofLayout (Layout.of line))) ∧
    (∀ value, (rewriteValue value).Ends ∧ rewriteValue value = lift id (expandValue value)) ∧
    (∀ name argument, (rewriteLongForm name argument).Ends ∧
      rewriteLongForm name argument = lift id (expandLongForm name argument)) ∧
    (∀ options text, (normalizeAt options text).Ends ∧
      normalizeAt options text = report (Shorthand.normalize options text)) ∧
    (∀ column lines, reindentAt (ε := Nat × String) column lines = .ok (reindent column lines)) ∧
    (∀ {src rest : List Char} {fuel : Nat}, rest <:+ src → 2 * rest.length < fuel →
      (∀ kind, Advances (offset src rest) (takeTurn src (scanNode src fuel true) kind (offset src rest))) ∧
      ∀ {inFlow : Bool} {text : List Char} {next : Nat},
        scanNode src fuel inFlow (offset src rest) = .ok (.quoted text, next) →
          ∃ inner, text = inQuotes inner ∧ cutQuotes text = .ok inner) ∧
    (∃ src, src ≠ [] ∧ scanPlain src true 0 = .ok ([], 0)) ∧ ∃ src, src ≠ [] ∧ scanPlainKey src 0 = .ok ([], 0) := by
  refine ⟨fun line => ?_, fun value => ?_, fun name argument => ?_, fun options text => ?_, reindentAt_eq,
    fun h hfuel => ?_, ⟨[','], by decide, by decide⟩, ⟨[','], by decide, by decide⟩⟩
  · rw [cutLine_eq]
    exact ⟨trivial, rfl⟩
  · rw [rewriteValue_eq]
    exact ⟨ends_lift id _, rfl⟩
  · rw [rewriteLongForm_eq]
    exact ⟨ends_lift id _, rfl⟩
  · rw [normalizeAt_eq]
    exact ⟨ends_report _, rfl⟩
  · exact ⟨advances_takeTurn h hfuel, cutQuotes_of_scanNode h hfuel⟩

/-- A backslash in front of a character of two octets. -/
theorem cursors_end_in_bounds_escaped :
    scanNode ['"', '\\', 'é', '"'] 9 true 0 = .ok (.quoted ['"', '\\', 'é', '"'], 5) ∧
      ∃ inner, ['"', '\\', 'é', '"'] = inQuotes inner ∧ cutQuotes ['"', '\\', 'é', '"'] = .ok inner := by
  have hscan : scanNode ['"', '\\', 'é', '"'] 9 true 0 = .ok (.quoted ['"', '\\', 'é', '"'], 5) := by decide
  obtain ⟨-, -, -, -, -, hplaces, -⟩ := cursors_end_in_bounds
  exact ⟨hscan, (hplaces (List.suffix_refl ['"', '\\', 'é', '"']) (by decide)).2 hscan⟩

end CloudTemplate.Octets
