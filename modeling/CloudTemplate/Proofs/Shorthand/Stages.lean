import CloudTemplate.Proofs.Outcome
import CloudTemplate.Proofs.Shorthand.NeverClosed
import CloudTemplate.Proofs.Shorthand.Sections
import Mathlib.Data.List.Forall2
/-! The queue of a run, step by step. It always holds the last lines of the document with their numbers, changed in the
blanks at their heads at most, and each step leaves fewer of them. So a run takes every line once and in order, and a
fault has the number of the line whose value is at fault: `normalize_stages`. -/
namespace CloudTemplate.Shorthand

/-- How a line of a document may wait in a queue: as it stands, with no blanks left if it has nothing else, or with other
spaces in front. -/
inductive Waits (source : SourceLine) : SourceLine → Prop
  | same : Waits source source
  | emptied (hblank : Text.isBlankText source.text = true) : Waits source ⟨source.number, []⟩
  | moved (hblank : Text.isBlankText source.text = false) (n : Nat) :
      Waits source ⟨source.number, Text.spaces n ++ Text.trimStart source.text⟩

theorem Waits.number_eq {source line : SourceLine} (h : Waits source line) : line.number = source.number := by
  cases h <;> rfl

theorem Waits.trans {source line moved : SourceLine} (h : Waits source line) (hmoved : Waits line moved) :
    Waits source moved := by
  cases h with
  | same => exact hmoved
  | emptied hblank =>
    cases hmoved with
    | same | emptied => exact .emptied hblank
    | moved hfilled => contradiction
  | moved hblank n =>
    have hfilled : Text.isBlankText (Text.spaces n ++ Text.trimStart source.text) = false := by
      rw [isBlankText_spaces, isBlankText_trimStart, hblank]
    cases hmoved with
    | same => exact .moved hblank n
    | emptied hempty => exact absurd (hempty.symm.trans hfilled) (by decide)
    | moved _ m =>
      rw [trimStart_spaces, Text.trimStart, Text.trimStart, List.dropWhile_idempotent]
      exact .moved hblank m

/-- Lines that are moved to a column still wait for the same lines of the document. -/
theorem waits_reindent {source lines : List SourceLine} (h : List.Forall₂ Waits source lines) (column : Nat) :
    List.Forall₂ Waits source (reindent column lines) := by
  refine List.forall₂_map_right_iff.2 (h.imp fun origin line hline => hline.trans ?_)
  cases hblank : Text.isBlankText line.text with
  | true => exact .emptied hblank
  | false => exact .moved hblank _

section Steps

variable {options : Options} {source queue : List SourceLine} {outcome : Outcome}

theorem waits_of_place {number : Nat} {layout : Layout} {expansion : Expansion}
    (h : place options number layout expansion queue = .ok outcome) (hqueue : List.Forall₂ Waits source queue) :
    ∃ n, List.Forall₂ Waits (source.drop n) outcome.queue := by
  obtain ⟨_, rfl⟩ | ⟨_, _, body, rest, column, -, rfl, rfl | rfl⟩ := place_ok h
  · exact ⟨0, hqueue⟩
  · exact ⟨body.length, List.forall₂_drop_append source body rest hqueue⟩
  · refine ⟨0, ?_⟩
    rw [List.drop_zero, ← List.take_append_drop body.length source]
    exact List.rel_append (waits_reindent (List.forall₂_take_append source body rest hqueue) column)
      (List.forall₂_drop_append source body rest hqueue)

theorem waits_of_settle {number : Nat} {text : List Char} (h : settle options number text queue = .ok outcome)
    (hqueue : List.Forall₂ Waits source queue) : ∃ n, List.Forall₂ Waits (source.drop n) outcome.queue := by
  obtain ⟨body, rest, rfl, rfl⟩ | ⟨expansion, -, hplace⟩ := settle_ok h
  · exact ⟨body.length, List.forall₂_drop_append source body rest hqueue⟩
  · exact waits_of_place hplace hqueue

/-- A step leaves the last of the lines that wait behind its line. -/
theorem waits_of_step {line : SourceLine} (h : step options line queue = .ok outcome)
    (hqueue : List.Forall₂ Waits source queue) : ∃ n, List.Forall₂ Waits (source.drop n) outcome.queue := by
  obtain ⟨taken, rest, rfl, rfl | ⟨joined, hsettle⟩⟩ := step_ok h
  · exact ⟨taken.length, List.forall₂_drop_append source taken rest hqueue⟩
  · obtain ⟨n, hwaits⟩ := waits_of_settle hsettle (List.forall₂_drop_append source taken rest hqueue)
    exact ⟨taken.length + n, by rwa [← List.drop_drop]⟩

end Steps

section Rejoined

variable {options : Options} {line whole : SourceLine} {queue rest : List SourceLine}

/-- The line that an open collection is joined to and the lines behind it, if there is a mark in what is joined. A step
starts over with that line. -/
def rejoined? (options : Options) (line : SourceLine) (queue : List SourceLine) : Option (SourceLine × List SourceLine) :=
  let layout := Layout.of line.text
  if Form.of options layout = .openFlow ∧ options.isEnabled .multiline = true then
    match joinFlow (layout.lead ++ layout.value) queue with
    | some (joined, _, rest) => if hasMark joined then some (⟨line.number, joined⟩, rest) else none
    | none => none
  else none

theorem rejoined_ok (h : rejoined? options line queue = some (whole, rest)) :
    Form.of options (Layout.of line.text) = .openFlow ∧ options.isEnabled .multiline = true ∧ hasMark whole.text = true ∧
      whole.number = line.number ∧ ∃ taken,
        joinFlow ((Layout.of line.text).lead ++ (Layout.of line.text).value) queue = some (whole.text, taken, rest) := by
  simp only [rejoined?] at h
  split at h
  · rename_i hopen
    split at h
    · rename_i joined taken left hjoin
      split at h
      · rename_i hmark
        cases h
        exact ⟨hopen.1, hopen.2, hmark, rfl, taken, hjoin⟩
      · contradiction
    · contradiction
  · contradiction

/-- Joining takes lines off the queue. -/
theorem length_lt_of_joinFlow {joined text : List Char} {taken : List SourceLine}
    (h : joinFlow joined queue = some (text, taken, rest)) : rest.length < queue.length := by
  cases queue with
  | nil => contradiction
  | cons line queue =>
    rw [joinFlow] at h
    generalize (if (pieceOf line.text).isEmpty then joined else joined ++ ' ' :: pieceOf line.text) = longer at h
    simp only at h
    split at h
    · obtain ⟨⟨text, taken, left⟩, hjoin, heq⟩ := Option.map_eq_some_iff.1 h
      cases heq
      exact Nat.lt_succ_of_le (length_joinFlow_le hjoin)
    · cases h
      exact Nat.lt_succ_self _

/-- A joined line closes its brackets, so it is not joined again. -/
theorem form_ne_openFlow_of_rejoined (h : rejoined? options line queue = some (whole, rest)) :
    Form.of options (Layout.of whole.text) ≠ .openFlow := by
  obtain ⟨-, -, -, -, taken, hjoin⟩ := rejoined_ok h
  exact (isOpen_eq_false_iff.1 (joinFlow_closes hjoin).2).form_ne_openFlow options

/-- Starting over with a joined line comes to the same, and does not happen again. -/
theorem step_rejoined (h : rejoined? options line queue = some (whole, rest)) :
    step options line queue = step options whole rest ∧ rejoined? options whole rest = none := by
  have hform := form_ne_openFlow_of_rejoined h
  obtain ⟨hopen, hmultiline, hmark, hnumber, taken, hjoin⟩ := rejoined_ok h
  constructor
  · rw [step_joined hopen hmultiline hjoin, if_pos hmark, ← hnumber, step, if_neg hform]
  · simp [rejoined?, hform]

/-- A joined line starts with what its first line has up to the end of its value, which starts at the same column. -/
theorem lead_of_rejoined (h : rejoined? options line queue = some (whole, rest)) :
    (Layout.of line.text).lead ++ (Layout.of line.text).value <+: whole.text ∧
      (Layout.of whole.text).lead = (Layout.of line.text).lead := by
  obtain ⟨hopen, -, -, -, taken, hjoin⟩ := rejoined_ok h
  have hstart := (joinFlow_closes hjoin).1
  refine ⟨hstart, ?_⟩
  obtain ⟨behind, hbehind⟩ := hstart
  have hopens := (Form.of_openFlow hopen).1
  have hvalue := ne_nil_of_opensFlow hopens
  have hlonger : opensFlow ((Layout.of line.text).value ++ behind) = true := by
    obtain ⟨c, cs, hcs⟩ := List.exists_cons_of_ne_nil hvalue
    rw [hcs] at hopens ⊢
    exact hopens
  rw [← hbehind, List.append_assoc, Layout.of_lead_append hvalue hlonger]
  rfl

end Rejoined

def treated (options : Options) (line : SourceLine) (queue : List SourceLine) : SourceLine × List SourceLine :=
  (rejoined? options line queue).getD (line, queue)

inductive Offends (options : Options) (line : SourceLine) (queue : List SourceLine) : LineCause → Prop
  | neverClosed (hopen : Form.of options (Layout.of line.text) = .openFlow)
      (hjoin : joinFlow ((Layout.of line.text).lead ++ (Layout.of line.text).value) queue = none)
      (hmark : hasMark (Layout.of line.text).value = true) : Offends options line queue .neverClosed
  | malformed {fault : FlowFault} (h : expansionOf options (treated options line queue).1.text = .error fault) :
      Offends options line queue (.flow fault)
  | noBlock {names : List String}
      (h : expansionOf options (treated options line queue).1.text = .ok (.block names none))
      (hbody : ownBody options (treated options line queue).1.text (treated options line queue).2 = []) :
      Offends options line queue (.noBlock names)

section Faults

variable {options : Options} {line : SourceLine} {queue : List SourceLine} {fault : LineFault}

/-- A step that fails names its line and what is wrong with the value there. -/
theorem offends_of_step (h : step options line queue = .error fault) :
    fault.line = line.number ∧ Offends options line queue fault.cause := by
  refine ⟨line_of_step_error h, ?_⟩
  have hsettled {number : Nat} (h : settle options number (treated options line queue).1.text
      (treated options line queue).2 = .error fault) : Offends options line queue fault.cause := by
    obtain ⟨cause, hexpand, rfl⟩ | ⟨names, hexpand, rfl, hbody⟩ := settle_error h
    · exact .malformed hexpand
    · exact .noBlock hexpand hbody
  by_cases hopen : Form.of options (Layout.of line.text) = .openFlow
  · cases hmultiline : options.isEnabled .multiline with
    | false => simp [step, hopen, hmultiline] at h
    | true =>
      cases hjoin : joinFlow ((Layout.of line.text).lead ++ (Layout.of line.text).value) queue with
      | none =>
        rw [step_unjoined hopen hmultiline hjoin] at h
        split at h
        · rename_i hmark
          cases h
          exact .neverClosed hopen hjoin hmark
        · contradiction
      | some result =>
        obtain ⟨joined, taken, rest⟩ := result
        rw [step_joined hopen hmultiline hjoin] at h
        split at h
        · rename_i hmark
          have htreated : treated options line queue = (⟨line.number, joined⟩, rest) := by
            simp [treated, rejoined?, hopen, hmultiline, hjoin, hmark]
          exact hsettled (by rwa [htreated])
        · contradiction
  · have htreated : treated options line queue = (line, queue) := by simp [treated, rejoined?, hopen]
    rw [step, if_neg hopen] at h
    exact hsettled (by rwa [htreated])

end Faults

def stages (options : Options) : List SourceLine → List (List SourceLine)
  | [] => []
  | line :: queue =>
    (line :: queue) ::
      match h : step options line queue with
      | .error _ => []
      | .ok outcome =>
        have := length_step_le h
        stages options outcome.queue
termination_by queue => queue.length

/-- The numbers of the lines that a step takes off its queue for good. -/
def handled (options : Options) : List SourceLine → List Nat
  | [] => []
  | line :: queue =>
    match step options line queue with
    | .error _ => [line.number]
    | .ok outcome => ((line :: queue).map SourceLine.number).take (queue.length + 1 - outcome.queue.length)

section Runs

variable {options : Options} {line : SourceLine} {queue : List SourceLine}

theorem stages_nil : stages options [] = [] := by
  rw [stages]

theorem stages_of_error {fault : LineFault} (h : step options line queue = .error fault) :
    stages options (line :: queue) = [line :: queue] := by
  rw [stages]
  split
  · rfl
  · rename_i h'
    rw [h] at h'
    contradiction

theorem stages_of_step {outcome : Outcome} (h : step options line queue = .ok outcome) :
    stages options (line :: queue) = (line :: queue) :: stages options outcome.queue := by
  rw [stages]
  split
  · rename_i h'
    rw [h] at h'
    contradiction
  · rename_i h'
    rw [h] at h'
    cases h'
    rfl

/-- A run has no more steps than lines. -/
theorem length_stages_le (queue : List SourceLine) : (stages options queue).length ≤ queue.length := by
  induction queue using runInduction options with
  | nil => simp [stages_nil]
  | fault line queue fault hstep => simp [stages_of_error hstep]
  | next line queue outcome hstep ih =>
    have hqueue := length_step_le hstep
    simp only [stages_of_step hstep, List.length_cons]
    omega

/-- Every queue of a run holds the last lines of the document. -/
theorem waits_of_mem_stages {source start : List SourceLine} (hstart : List.Forall₂ Waits source start) :
    ∀ queue ∈ stages options start, ∃ n, List.Forall₂ Waits (source.drop n) queue := by
  induction start using runInduction options generalizing source with
  | nil => simp [stages_nil]
  | fault line queue fault hstep =>
    rw [stages_of_error hstep, List.forall_mem_singleton]
    exact ⟨0, hstart⟩
  | next line queue outcome hstep ih =>
    rw [stages_of_step hstep, List.forall_mem_cons]
    refine ⟨⟨0, hstart⟩, fun later hlater => ?_⟩
    obtain ⟨m, hqueue⟩ := waits_of_step hstep (List.forall₂_drop 1 hstart)
    obtain ⟨n, hwaits⟩ := ih hqueue later hlater
    exact ⟨1 + m + n, by rwa [← List.drop_drop, ← List.drop_drop]⟩

/-- A run that fails does so in its last step. -/
theorem getLast_stages_of_error {fault : LineFault} (h : normalizeLines options queue = .error fault) :
    ∃ line rest, (stages options queue).getLast? = some (line :: rest) ∧ step options line rest = .error fault := by
  induction queue using runInduction options with
  | nil =>
    rw [normalizeLines_nil] at h
    contradiction
  | fault line queue other hstep =>
    rw [normalizeLines_cons, hstep] at h
    cases h
    exact ⟨line, queue, by rw [stages_of_error hstep, List.getLast?_singleton], hstep⟩
  | next line queue outcome hstep ih =>
    rw [normalizeLines_of_step hstep] at h
    cases hrest : normalizeLines options outcome.queue with
    | ok lines =>
      rw [hrest] at h
      contradiction
    | error other =>
      rw [hrest] at h
      cases h
      obtain ⟨last, rest, hlast, hfails⟩ := ih hrest
      exact ⟨last, rest, by rw [stages_of_step hstep, List.getLast?_cons, hlast, Option.getD_some], hfails⟩

/-- The lines that the steps of a run take, one step after the other: all of them, or those up to the one at fault. -/
theorem handled_stages {first : Nat} (hqueue : queue.map SourceLine.number = List.range' first queue.length) :
    (∀ lines, normalizeLines options queue = .ok lines →
        (stages options queue).flatMap (handled options) = List.range' first queue.length) ∧
      ∀ fault, normalizeLines options queue = .error fault →
        (stages options queue).flatMap (handled options) = List.range' first (fault.line + 1 - first) := by
  induction queue using runInduction options generalizing first with
  | nil => simp [stages_nil, normalizeLines_nil]
  | fault line queue fault hstep =>
    have hnumber : line.number = first := by
      rw [List.map_cons, List.length_cons, List.range'_succ, List.cons.injEq] at hqueue
      exact hqueue.1
    rw [normalizeLines_cons, hstep, stages_of_error hstep]
    refine ⟨fun lines h => by contradiction, fun other h => ?_⟩
    cases h
    simp [handled, hstep, line_of_step_error hstep, hnumber]
  | next line queue outcome hstep ih =>
    -- What is left is a run of numbers of its own, `taken` further on.
    obtain ⟨taken, htaken⟩ : ∃ taken, queue.length + 1 = taken + outcome.queue.length := by
      have := length_step_le hstep
      exact ⟨queue.length + 1 - outcome.queue.length, by omega⟩
    have hsplit : List.range' first taken ++ List.range' (first + taken) outcome.queue.length =
        (line :: queue).map SourceLine.number := by
      rw [hqueue, List.length_cons, htaken, List.range'_append_1]
    have hleft : outcome.queue.map SourceLine.number = List.range' (first + taken) outcome.queue.length := by
      have hsuffix := (numbers_of_step hstep).trans (List.suffix_cons line.number _)
      rw [← List.map_cons (f := SourceLine.number), ← hsplit] at hsuffix
      exact (List.suffix_of_suffix_length_le hsuffix (List.suffix_append _ _) (by simp)).eq_of_length (by simp)
    have hshare : handled options (line :: queue) = List.range' first taken := by
      rw [handled, hstep]
      dsimp only
      rw [htaken, Nat.add_sub_cancel, ← hsplit, List.take_left' (List.length_range')]
    obtain ⟨hsuccess, hfault⟩ := ih hleft
    rw [stages_of_step hstep, List.flatMap_cons, hshare, normalizeLines_of_step hstep]
    refine ⟨fun lines h => ?_, fun fault h => ?_⟩
    · obtain ⟨rest, hrest, -⟩ := map_eq_ok_iff.1 h
      rw [hsuccess rest hrest, List.range'_append_1, List.length_cons, htaken]
    · cases hrest : normalizeLines options outcome.queue with
      | ok rest =>
        rw [hrest] at h
        contradiction
      | error other =>
        rw [hrest] at h
        cases h
        have hmem := line_mem_of_error hrest
        rw [hleft, List.mem_range'_1] at hmem
        rw [hfault _ hrest, List.range'_append_1]
        congr 1
        omega

end Runs

theorem map_number_numberLines (first : Nat) (lines : List (List Char)) :
    (numberLines first lines).map SourceLine.number = List.range' first (numberLines first lines).length := by
  induction lines generalizing first with
  | nil => rfl
  | cons text lines ih => simp [numberLines, ih, List.range'_succ]

theorem normalize_eq_error_iff {options : Options} {text : String} {fault : LineFault} :
    normalize options text = .error fault ↔ normalizeLines options (numberLines 1 (linesOf text)) = .error fault := by
  rw [normalize_eq_map]
  cases normalizeLines options (numberLines 1 (linesOf text)) <;> simp [Except.map]

/-- Before each step of a run the queue holds the lines of the document from some line on, in order and with their
numbers. The step handles the first of them and leaves fewer; it starts over at most once, with a line that is joined
from lines of the queue. So there are no more steps than lines, and each line is handled once. A run that fails does so
at a line whose value is at fault: the tag, the long form or the collection that starts there, with the lines that it
goes over. -/
theorem normalize_stages (options : Options) (text : String) :
    let source := numberLines 1 (linesOf text)
    let run := stages options source
    (∀ line queue, line :: queue ∈ run →
        (∃ n < source.length, line.number = n + 1 ∧ List.Forall₂ Waits (source.drop n) (line :: queue)) ∧
        (∀ outcome, step options line queue = .ok outcome → outcome.queue.length < (line :: queue).length) ∧
        ∀ whole rest, rejoined? options line queue = some (whole, rest) →
          step options line queue = step options whole rest ∧ whole.number = line.number ∧
            rest.length < queue.length ∧ rejoined? options whole rest = none) ∧
      run.length ≤ source.length ∧
      (∀ out, normalize options text = .ok out → run.flatMap (handled options) = List.range' 1 source.length) ∧
      ∀ fault, normalize options text = .error fault →
        run.flatMap (handled options) = List.range' 1 fault.line ∧
          ∃ line queue, run.getLast? = some (line :: queue) ∧ fault.line = line.number ∧
            Offends options line queue fault.cause ∧
            (Layout.of line.text).lead ++ (Layout.of line.text).value <+: (treated options line queue).1.text ∧
            (Layout.of (treated options line queue).1.text).lead = (Layout.of line.text).lead := by
  intro source run
  have hnumbers : source.map SourceLine.number = List.range' 1 source.length := map_number_numberLines 1 (linesOf text)
  obtain ⟨hsuccess, hfault⟩ := @handled_stages options source 1 hnumbers
  refine ⟨fun line queue hmem => ⟨?_, fun outcome hstep => Nat.lt_succ_of_le (length_step_le hstep),
      fun whole rest hwhole => ?_⟩, length_stages_le source, fun out hout => ?_, fun fault herror => ?_⟩
  · obtain ⟨n, hwaits⟩ := waits_of_mem_stages (List.forall₂_same.2 fun line _ => .same) _ hmem
    obtain ⟨origin, later, horigin, -, hdrop⟩ := List.forall₂_cons_right_iff.1 hwaits
    have hn : n < source.length := by
      by_contra hlarge
      rw [List.drop_eq_nil_of_le (Nat.le_of_not_lt hlarge)] at hdrop
      contradiction
    refine ⟨n, hn, ?_, hwaits⟩
    have hhead : (source.map SourceLine.number)[n]? = some origin.number := by
      rw [List.getElem?_map, ← List.head?_drop, hdrop, List.head?_cons, Option.map_some]
    rw [hnumbers, List.getElem?_range' hn, Option.some.injEq] at hhead
    rw [horigin.number_eq, ← hhead, Nat.one_mul, Nat.add_comm]
  · obtain ⟨hstep, hagain⟩ := step_rejoined hwhole
    obtain ⟨-, -, -, hnumber, taken, hjoin⟩ := rejoined_ok hwhole
    exact ⟨hstep, hnumber, length_lt_of_joinFlow hjoin, hagain⟩
  · rw [normalize_eq_map] at hout
    obtain ⟨lines, hlines, -⟩ := map_eq_ok_iff.1 hout
    exact hsuccess lines hlines
  · rw [normalize_eq_error_iff] at herror
    obtain ⟨line, queue, hlast, hstep⟩ := getLast_stages_of_error herror
    obtain ⟨hline, hoffends⟩ := offends_of_step hstep
    refine ⟨by simpa using hfault fault herror, line, queue, hlast, hline, hoffends, ?_⟩
    rw [treated]
    cases hwhole : rejoined? options line queue with
    | none => exact ⟨⟨_, Layout.text_of line.text⟩, rfl⟩
    | some result => exact lead_of_rejoined hwhole

/-- A collection in the body of a block tag, whose lines are moved before they are joined, and a fault behind it. -/
theorem normalize_stages_body :
    let text := "A: !Join\n  - [!Ref b,\n \n    c]\nB: !Nope x"
    let source := numberLines 1 (linesOf text)
    let line : SourceLine := ⟨2, "    - [!Ref b,".toList⟩
    let rest : List SourceLine := [⟨5, "B: !Nope x".toList⟩]
    let queue : List SourceLine := ⟨3, []⟩ :: ⟨4, "      c]".toList⟩ :: rest
    let whole : SourceLine := ⟨2, "    - [!Ref b, c]".toList⟩
    line :: queue ∈ stages .standard source ∧ rejoined? .standard line queue = some (whole, rest) ∧
      (∃ n < source.length, 2 = n + 1 ∧ List.Forall₂ Waits (source.drop n) (line :: queue)) ∧
      step .standard line queue = step .standard whole rest ∧
      normalize .standard text = .error ⟨5, .flow (.unknownTag "Nope")⟩ ∧
      (stages .standard source).flatMap (handled .standard) = List.range' 1 5 ∧
      (stages .standard (numberLines 1 (linesOf "A: !Ref b\nC"))).flatMap (handled .standard) = List.range' 1 2 := by
  intro text source line rest queue whole
  have hmem : line :: queue ∈ stages .standard source := by decide +kernel
  have hwhole : rejoined? .standard line queue = some (whole, rest) := by decide +kernel
  have herror : normalize .standard text = .error ⟨5, .flow (.unknownTag "Nope")⟩ := by decide +kernel
  obtain ⟨hstages, -, -, hfault⟩ := normalize_stages .standard text
  obtain ⟨hwaits, -, hagain⟩ := hstages line queue hmem
  have hsuccess := (normalize_stages .standard "A: !Ref b\nC").2.2.1
  exact ⟨hmem, hwhole, hwaits, (hagain whole rest hwhole).1, herror, (hfault _ herror).1,
    hsuccess "A: \x7b \"Ref\" : \"b\" \x7d\nC" (by decide +kernel)⟩

end CloudTemplate.Shorthand
