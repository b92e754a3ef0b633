import CloudTemplate.Proofs.Shorthand.ApartRuns
import CloudTemplate.Proofs.Shorthand.Pieces
/-! Collections that no line closes. They are a fault if a mark stands in their first line; a mark in the lines behind it
does not count, and those lines are treated by themselves: `normalize_neverClosed`. -/
namespace CloudTemplate.Shorthand

namespace Layout

/-- Another value that holds no comment, behind what stands before the value of a line. -/
theorem of_lead_noComment {line cs : List Char} (hvalue : opensFlow (of line).value = true) (hopens : opensFlow cs = true)
    (hend : Text.trimEnd cs = cs) (hcomment : HoldsNoComment .outside true cs) :
    of ((of line).lead ++ cs) = ⟨(of line).opening, (of line).key, cs, []⟩ := by
  have hsplit := splitCommentFrom_append .outside true cs
  rw [hcomment, List.append_nil] at hsplit
  have hrest := @ofRest_append (of line).opening (of line).key cs [] []
    (by simp only [List.append_nil]; exact Prod.ext hsplit hcomment) (List.forall_mem_nil _) hend
  rw [of_lead_append (ne_nil_of_opensFlow hvalue) hopens]
  simpa using hrest

theorem of_lead_value {line : List Char} (hopens : opensFlow (of line).value = true) :
    of ((of line).lead ++ (of line).value) = ⟨(of line).opening, (of line).key, (of line).value, []⟩ :=
  of_lead_noComment hopens hopens (trimEnd_value line) (holdsNoComment_value line)

end Layout

/-- Whether a line opens a collection that stays open, alone and with any of the lines that follow it. -/
structure NeverCloses (line : SourceLine) (queue : List SourceLine) : Prop where
  opens : opensFlow (Layout.of line.text).value = true
  staysOpen : ∀ taken, taken <+: queue →
    isOpen (joinPieces ((Layout.of line.text).lead ++ (Layout.of line.text).value) taken) = true

theorem NeverCloses.step_eq {line : SourceLine} {queue : List SourceLine} (h : NeverCloses line queue) :
    step .standard line queue =
      if '!' ∈ (Layout.of line.text).value then .error ⟨line.number, .neverClosed⟩ else .ok ⟨[line.text], queue⟩ := by
  have hself : isOpen ((Layout.of line.text).lead ++ (Layout.of line.text).value) = true := by
    simpa using h.staysOpen [] List.nil_prefix
  have hbalance : 0 < bracketBalance (Layout.of line.text).value := by
    simpa [isOpen, Layout.of_lead_value h.opens] using hself
  have hform : Form.of .standard (Layout.of line.text) = .openFlow := Form.of_eq_openFlow h.opens hbalance
  have hjoin := (joinFlow_eq_none_iff hself queue).2 h.staysOpen
  simp [step_unjoined hform rfl hjoin, hasMark]

section Numbers

variable {options : Options}

@[simp] theorem map_number_reindent (column : Nat) (lines : List SourceLine) :
    (reindent column lines).map SourceLine.number = lines.map SourceLine.number := by
  simp only [reindent, List.map_map]
  refine List.map_congr_left fun line _ => ?_
  dsimp only [Function.comp]
  split <;> rfl

/-- The lines that are left keep their numbers and their order. -/
theorem numbers_of_place {number : Nat} {layout : Layout} {expansion : Expansion} {queue : List SourceLine}
    {outcome : Outcome} (h : place options number layout expansion queue = .ok outcome) :
    outcome.queue.map SourceLine.number <:+ queue.map SourceLine.number := by
  obtain ⟨_, rfl⟩ | ⟨_, _, body, rest, column, -, rfl, rfl | rfl⟩ := place_ok h
  · exact List.suffix_rfl
  · exact (List.suffix_append body rest).map SourceLine.number
  · simp

theorem numbers_of_settle {number : Nat} {text : List Char} {queue : List SourceLine} {outcome : Outcome}
    (h : settle options number text queue = .ok outcome) :
    outcome.queue.map SourceLine.number <:+ queue.map SourceLine.number := by
  obtain ⟨body, rest, rfl, rfl⟩ | ⟨expansion, -, hplace⟩ := settle_ok h
  · exact (List.suffix_append body rest).map SourceLine.number
  · exact numbers_of_place hplace

theorem numbers_of_step {line : SourceLine} {queue : List SourceLine} {outcome : Outcome}
    (h : step options line queue = .ok outcome) :
    outcome.queue.map SourceLine.number <:+ queue.map SourceLine.number := by
  obtain ⟨taken, rest, rfl, rfl | ⟨joined, hsettle⟩⟩ := step_ok h
  · exact (List.suffix_append taken rest).map SourceLine.number
  · exact (numbers_of_settle hsettle).trans ((List.suffix_append taken rest).map SourceLine.number)

/-- A line is placed unless it is a chain of functions and no lines belong to it. -/
theorem place_error {number : Nat} {layout : Layout} {expansion : Expansion} {queue : List SourceLine}
    {fault : LineFault} (h : place options number layout expansion queue = .error fault) :
    ∃ names, expansion = .block names none ∧ fault = ⟨number, .noBlock names⟩ ∧
      bodyOf layout.ownerColumn layout.keyColumn.isSome queue = [] := by
  cases expansion with
  | unchanged => contradiction
  | inline value =>
    simp only [place] at h
    split at h <;> contradiction
  | block names indicator =>
    cases indicator with
    | some text =>
      simp only [place, Option.isSome_some, if_true] at h
      split at h <;> contradiction
    | none =>
      simp only [place, Option.isSome_none, Bool.false_eq_true, if_false] at h
      split at h
      · contradiction
      · split at h
        · rename_i hbody
          cases h
          exact ⟨names, rfl, rfl, List.isEmpty_iff.1 hbody⟩
        · contradiction

theorem settle_error {number : Nat} {text : List Char} {queue : List SourceLine} {fault : LineFault}
    (h : settle options number text queue = .error fault) :
    (∃ cause, expansionOf options text = .error cause ∧ fault = ⟨number, .flow cause⟩) ∨
      ∃ names, expansionOf options text = .ok (.block names none) ∧ fault = ⟨number, .noBlock names⟩ ∧
        ownBody options text queue = [] := by
  by_cases hform : Form.of options (Layout.of text) = .blockScalar
  · simp [settle, hform] at h
  rw [settle_of_ne_blockScalar hform] at h
  cases hexpand : expansionOf options text with
  | error cause =>
    rw [hexpand] at h
    cases h
    exact .inl ⟨cause, rfl, rfl⟩
  | ok expansion =>
    rw [hexpand] at h
    obtain ⟨names, rfl, hfault, hbody⟩ := place_error h
    exact .inr ⟨names, rfl, hfault, by rwa [ownBody, bne_iff_ne.2 hform, Bool.true_and]⟩

theorem line_of_settle_error {number : Nat} {text : List Char} {queue : List SourceLine} {fault : LineFault}
    (h : settle options number text queue = .error fault) : fault.line = number := by
  obtain ⟨cause, -, rfl⟩ | ⟨names, -, rfl, -⟩ := settle_error h
  · rfl
  · rfl

/-- A step names its line in a fault. -/
theorem line_of_step_error {line : SourceLine} {queue : List SourceLine} {fault : LineFault}
    (h : step options line queue = .error fault) : fault.line = line.number := by
  simp only [step] at h
  repeat' split at h
  all_goals first
    | contradiction
    | exact line_of_settle_error h
    | (cases h; rfl)

/-- A run names one of its lines in a fault. -/
theorem line_mem_of_error {queue : List SourceLine} {fault : LineFault} (h : normalizeLines options queue = .error fault) :
    fault.line ∈ queue.map SourceLine.number := by
  induction queue using runInduction options with
  | nil =>
    rw [normalizeLines_nil] at h
    contradiction
  | fault line queue other hstep =>
    rw [normalizeLines_cons, hstep] at h
    cases h
    simp [line_of_step_error hstep]
  | next line queue outcome hstep ih =>
    rw [normalizeLines_of_step hstep] at h
    cases hrest : normalizeLines options outcome.queue with
    | ok lines =>
      rw [hrest] at h
      contradiction
    | error other =>
      rw [hrest] at h
      cases h
      exact List.mem_cons_of_mem _ ((numbers_of_step hstep).subset (ih hrest))

theorem nodup_numberLines (first : Nat) (lines : List (List Char)) :
    ((numberLines first lines).map SourceLine.number).Nodup := by
  have hrange : (numberLines first lines).map SourceLine.number = List.range' first lines.length := by
    induction lines generalizing first with
    | nil => rfl
    | cons text lines ih => simp [numberLines, ih, List.range'_succ]
  rw [hrange]
  exact List.nodup_range'

inductive Reaches (options : Options) (start : List SourceLine) : List (List Char) → List SourceLine → Prop
  | start : Reaches options start [] start
  | step {lines : List (List Char)} {line : SourceLine} {queue : List SourceLine} {outcome : Outcome}
      (h : Reaches options start lines (line :: queue)) (hstep : step options line queue = .ok outcome) :
      Reaches options start (lines ++ outcome.lines) outcome.queue

variable {start queue : List SourceLine} {lines : List (List Char)}

/-- A run goes on from the lines that it comes to as a run from them does. -/
theorem Reaches.run (h : Reaches options start lines queue) :
    normalizeLines options start = (normalizeLines options queue).map (lines ++ ·) := by
  induction h with
  | start => cases normalizeLines options start <;> rfl
  | @step _ _ _ outcome _ hstep ih =>
    rw [ih, normalizeLines_of_step hstep]
    cases normalizeLines options outcome.queue <;> simp [Except.map]

theorem Reaches.numbers (h : Reaches options start lines queue) :
    queue.map SourceLine.number <:+ start.map SourceLine.number := by
  induction h with
  | start => exact List.suffix_rfl
  | step _ hstep ih => exact ((numbers_of_step hstep).trans (List.suffix_cons _ _)).trans ih

end Numbers

/-- A collection that no line closes is a fault of its first line if and only if a mark stands in the value there. Else
that line is put out as it is and the lines behind it are treated by themselves, wherever their marks stand. -/
theorem normalize_neverClosed {text : String} {lines : List (List Char)} {line : SourceLine} {queue : List SourceLine}
    (hreach : Reaches .standard (numberLines 1 (linesOf text)) lines (line :: queue)) (hnever : NeverCloses line queue) :
    (normalize .standard text = .error ⟨line.number, .neverClosed⟩ ↔ '!' ∈ (Layout.of line.text).value) ∧
      ('!' ∉ (Layout.of line.text).value →
        normalize .standard text =
          (normalizeLines .standard queue).map fun later => String.ofList (joinLines (lines ++ line.text :: later))) := by
  have hrun : normalize .standard text =
      (normalizeLines .standard (line :: queue)).map fun later => String.ofList (joinLines (lines ++ later)) := by
    rw [normalize_eq_map, hreach.run]
    cases normalizeLines .standard (line :: queue) <;> rfl
  by_cases hmark : '!' ∈ (Layout.of line.text).value
  · have hstep : step .standard line queue = .error ⟨line.number, .neverClosed⟩ := by rw [hnever.step_eq, if_pos hmark]
    rw [normalizeLines_cons, hstep] at hrun
    exact ⟨⟨fun _ => hmark, fun _ => hrun⟩, fun hnone => absurd hmark hnone⟩
  · have hstep : step .standard line queue = .ok ⟨[line.text], queue⟩ := by rw [hnever.step_eq, if_neg hmark]
    have hlater : normalize .standard text =
        (normalizeLines .standard queue).map fun later => String.ofList (joinLines (lines ++ line.text :: later)) := by
      rw [hrun, normalizeLines_of_step hstep]
      cases normalizeLines .standard queue <;> rfl
    refine ⟨⟨fun herror => ?_, fun hmem => absurd hmem hmark⟩, fun _ => hlater⟩
    -- A fault behind the line has the number of a line there, which is another.
    rw [hlater] at herror
    cases hqueue : normalizeLines .standard queue with
    | ok later =>
      rw [hqueue] at herror
      contradiction
    | error fault =>
      rw [hqueue] at herror
      have hmem := line_mem_of_error hqueue
      rw [Except.error.inj herror] at hmem
      have hnumbers := hreach.numbers.sublist.nodup (nodup_numberLines 1 (linesOf text))
      exact absurd hmem (List.nodup_cons.1 hnumbers).1

theorem normalize_neverClosed_second :
    let text := "A: 1\nB: [!Ref x,\n  y # ]\n\nC: !Nope z"
    linesOf text = ["A: 1".toList, "B: [!Ref x,".toList, "  y # ]".toList, [], "C: !Nope z".toList] ∧
      normalize .standard text = .error ⟨2, .neverClosed⟩ := by
  intro text
  have hlines : linesOf text = ["A: 1".toList, "B: [!Ref x,".toList, "  y # ]".toList, [], "C: !Nope z".toList] := by
    decide
  let queue : List SourceLine := [⟨3, "  y # ]".toList⟩, ⟨4, []⟩, ⟨5, "C: !Nope z".toList⟩]
  have hfirst : step .standard ⟨1, "A: 1".toList⟩ (⟨2, "B: [!Ref x,".toList⟩ :: queue) =
      .ok ⟨["A: 1".toList], ⟨2, "B: [!Ref x,".toList⟩ :: queue⟩ := by decide +kernel
  have hreach : Reaches .standard (numberLines 1 (linesOf text)) ["A: 1".toList] (⟨2, "B: [!Ref x,".toList⟩ :: queue) :=
    hlines ▸ Reaches.start.step hfirst
  have hnever : NeverCloses ⟨2, "B: [!Ref x,".toList⟩ queue :=
    ⟨by decide, (joinFlow_eq_none_iff (by decide) queue).1 (by decide)⟩
  exact ⟨hlines, (normalize_neverClosed hreach hnever).1.2 (by decide)⟩

/-- A mark behind the first line of a collection that no line closes. -/
theorem normalize_neverClosed_behind :
    NeverCloses ⟨1, "A: [".toList⟩ [⟨2, "  !Ref b,".toList⟩] ∧ '!' ∈ (Layout.of "  !Ref b,".toList).value ∧
      normalize .standard "A: [\n  !Ref b," = .ok "A: [\n  \x7b \"Ref\" : \"b,\" \x7d" ∧
      normalize .standard "A: [\n  !Ref b," ≠ .error ⟨1, .neverClosed⟩ :=
  ⟨⟨by decide, (joinFlow_eq_none_iff (by decide) _).1 (by decide)⟩, by decide, by decide +kernel, by decide +kernel⟩

end CloudTemplate.Shorthand
