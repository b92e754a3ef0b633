import CloudTemplate.Proofs.Shorthand.Idempotence
import CloudTemplate.Proofs.Shorthand.LongForms
import CloudTemplate.Proofs.Shorthand.Outcomes
import Mathlib.Data.List.Forall2
/-! Normalization without joined lines. No line is taken apart or put together with another one: each is put out by
itself, as it was or with its value written out between its other parts. -/
namespace CloudTemplate.Shorthand

inductive WrittenOut (value text : List Char) : Prop where
  | shorthand (h : expandValue value = .ok (.inline text))
  | longForm {name : String} {argument : List Char} (hsplit : splitLongForm value = some (name, argument))
      (h : expandLongForm name argument = .ok (.inline text))

/-- What a line is put out as. A value with a mark waits for the pass that writes tags out, and a value that opens
nothing for the pass that puts long forms in braces. -/
inductive Rewritten (options : Options) (line : List Char) : List Char → Prop where
  | same : Rewritten options line line
  | written {text : List Char} (hwritten : WrittenOut (Layout.of line).value text)
      (hmark : options.isEnabled .elongate = false → '!' ∉ (Layout.of line).value)
      (hopens : options.isEnabled .correctLong = false → opensFlow (Layout.of line).value = true) :
      Rewritten options line ((Layout.of line).lead ++ text ++ (Layout.of line).trailing)

theorem Form.isEnabled_of_longForm {options : Options} {layout : Layout} {name : String} {argument : List Char}
    (h : Form.of options layout = .longForm name argument) : options.isEnabled .correctLong = true := by
  cases hlong : options.isEnabled .correctLong with
  | true => rfl
  | false =>
    rw [Form.of, hlong, Bool.false_and] at h
    simp only [Bool.false_eq_true, if_false] at h
    split at h
    · contradiction
    · split at h <;> contradiction

theorem WrittenOut.not_mem {line text : List Char} (h : WrittenOut (Layout.of line).value text) (hline : '\n' ∉ line) :
    '\n' ∉ text := by
  cases h with
  | shorthand h =>
    obtain ⟨-, -, htext, -⟩ := isSound_expandValue hline h
    exact htext
  | longForm hsplit h =>
    obtain ⟨hvalue, hname, -⟩ := splitLongForm_ok hsplit
    obtain ⟨-, -, htext, -⟩ :=
      isSound_expandLongForm hname hvalue (not_mem_argument hsplit (not_mem_parts hline).2.1) h
    exact htext

/-- A line stays one line. -/
theorem Rewritten.not_mem {options : Options} {line out : List Char} (h : Rewritten options line out)
    (hline : '\n' ∉ line) : '\n' ∉ out := by
  cases h with
  | same => exact hline
  | written hwritten =>
    obtain ⟨hlead, -, htrailing⟩ := not_mem_parts hline
    simp [hlead, htrailing, hwritten.not_mem hline]

theorem not_mem_rewritten {options : Options} {lines outs : List (List Char)}
    (h : List.Forall₂ (Rewritten options) lines outs) (hlines : ∀ line ∈ lines, '\n' ∉ line) :
    ∀ out ∈ outs, '\n' ∉ out := by
  induction h with
  | nil => simp
  | cons hout _ ih =>
    rw [List.forall_mem_cons] at hlines ⊢
    exact ⟨hout.not_mem hlines.1, ih hlines.2⟩

theorem forall₂_rewritten_same (options : Options) (lines : List (List Char)) :
    List.Forall₂ (Rewritten options) lines lines :=
  List.forall₂_same.2 fun _ _ => .same

section Steps

variable {options : Options} (hoff : options.isEnabled .multiline = false) {number : Nat} {queue : List SourceLine}
  {outcome : Outcome}

include hoff

theorem rewritten_place {line : List Char} {expansion : Expansion}
    (hwritten : ∀ text, expansion = .inline text → WrittenOut (Layout.of line).value text)
    (hopens : expansion ≠ .unchanged → options.isEnabled .correctLong = false → opensFlow (Layout.of line).value = true)
    (h : place options number (Layout.of line) expansion queue = .ok outcome) :
    ∃ out, outcome = ⟨[out], queue⟩ ∧ Rewritten options line out := by
  have hsame : Rewritten options line (Layout.of line).text := (Layout.text_of line).symm ▸ .same
  cases expansion with
  | unchanged =>
    cases h
    exact ⟨_, rfl, hsame⟩
  | inline text =>
    simp only [place] at h
    split at h
    · rename_i hwrites
      cases h
      have hchanged : Expansion.inline text ≠ .unchanged := by simp
      refine ⟨_, rfl, .written (hwritten text rfl) (fun helongate => ?_) (hopens hchanged)⟩
      simpa [helongate, hasMark] using hwrites
    · cases h
      exact ⟨_, rfl, hsame⟩
  | block names indicator =>
    rw [place, hoff, Bool.not_false, if_pos rfl] at h
    cases h
    exact ⟨_, rfl, hsame⟩

/-- A line that is complete by itself is put out in the place where it stood. A block scalar keeps the lines below it. -/
theorem rewritten_settle {line : List Char} (h : settle options number line queue = .ok outcome) :
    ∃ taken, queue = taken ++ outcome.queue ∧
      List.Forall₂ (Rewritten options) (line :: taken.map SourceLine.text) outcome.lines := by
  have halone {expansion : Expansion}
      (hwritten : ∀ text, expansion = .inline text → WrittenOut (Layout.of line).value text)
      (hopens : expansion ≠ .unchanged → options.isEnabled .correctLong = false → opensFlow (Layout.of line).value = true)
      (h : place options number (Layout.of line) expansion queue = .ok outcome) :
      ∃ taken, queue = taken ++ outcome.queue ∧
        List.Forall₂ (Rewritten options) (line :: taken.map SourceLine.text) outcome.lines := by
    obtain ⟨out, rfl, hout⟩ := rewritten_place hoff hwritten hopens h
    exact ⟨[], rfl, .cons hout .nil⟩
  simp only [settle] at h
  split at h
  · cases h
    exact ⟨_, (bodyOf_append_drop _ _ _).symm, forall₂_rewritten_same options _⟩
  · rename_i name argument hform
    cases hexpand : expandLongForm name argument with
    | error fault =>
      rw [hexpand] at h
      contradiction
    | ok expansion =>
      rw [hexpand] at h
      refine halone (fun text htext => .longForm (Form.of_longForm hform) (htext ▸ hexpand)) (fun _ hdisabled => ?_) h
      rw [Form.isEnabled_of_longForm hform] at hdisabled
      contradiction
  · cases hexpand : expandValue (Layout.of line).value with
    | error fault =>
      rw [hexpand] at h
      contradiction
    | ok expansion =>
      rw [hexpand] at h
      exact halone (fun text htext => .shorthand (htext ▸ hexpand)) (fun hne _ => opensFlow_of_expandValue hexpand hne) h

/-- A step puts out as many lines as it takes, each for the line in its place. -/
theorem rewritten_step {line : SourceLine} (h : step options line queue = .ok outcome) :
    ∃ taken, queue = taken ++ outcome.queue ∧
      List.Forall₂ (Rewritten options) (line.text :: taken.map SourceLine.text) outcome.lines := by
  simp only [step, hoff, Bool.not_false, if_true] at h
  split at h
  · cases h
    exact ⟨[], rfl, .cons .same .nil⟩
  · exact rewritten_settle hoff h

/-- A run puts out one line for every line of the queue. -/
theorem rewritten_normalizeLines (queue : List SourceLine) {lines : List (List Char)}
    (h : normalizeLines options queue = .ok lines) :
    List.Forall₂ (Rewritten options) (queue.map SourceLine.text) lines := by
  induction queue using runInduction options generalizing lines with
  | nil =>
    rw [normalizeLines_nil] at h
    cases h
    exact .nil
  | fault line queue fault hstep =>
    rw [normalizeLines_cons, hstep] at h
    contradiction
  | next line queue outcome hstep ih =>
    rw [normalizeLines_of_step hstep] at h
    cases hrest : normalizeLines options outcome.queue with
    | error fault =>
      rw [hrest] at h
      contradiction
    | ok rest =>
      rw [hrest] at h
      cases h
      obtain ⟨taken, hqueue, htaken⟩ := rewritten_step hoff hstep
      rw [hqueue, ← List.cons_append, List.map_append]
      exact List.rel_append htaken (ih hrest)

end Steps

/-- Without the pass that joins lines, normalization goes line by line: every line of a document is put out as one line,
unchanged or with its value written out. -/
theorem forall₂_rewritten_normalize {options : Options} (hoff : options.isEnabled .multiline = false) {text out : String}
    (hquotes : '\'' ∉ text.toList) (h : normalize options text = .ok out) :
    List.Forall₂ (Rewritten options) (splitLines text.toList) (splitLines out.toList) := by
  rw [normalize, normalizeText, doubleQuotes_of_not_mem hquotes] at h
  cases hrun : normalizeLines options (numberLines 1 (splitLines text.toList)) with
  | error fault =>
    rw [hrun] at h
    contradiction
  | ok lines =>
    have hlines := rewritten_normalizeLines hoff _ hrun
    rw [map_text_numberLines] at hlines
    have hne : lines ≠ [] := by
      rintro rfl
      exact splitLines_ne_nil _ (List.forall₂_nil_right_iff.1 hlines)
    have hbreaks : ∀ line ∈ lines, '\n' ∉ line :=
      not_mem_rewritten hlines fun line hline hmem => (mem_of_mem_splitLines line hline _ hmem).2 rfl
    rw [hrun] at h
    cases h
    rwa [String.toList_ofList, splitLines_joinLines hne hbreaks]

/-- A reference is written out by itself, and a list that no line closes stays open with the mark in it. -/
theorem forall₂_rewritten_reference :
    normalize ⟨[.elongate]⟩ "A: !Ref b\nB: [ !Ref c" = .ok "A: \x7b \"Ref\" : \"b\" \x7d\nB: [ !Ref c" ∧
      List.Forall₂ (Rewritten ⟨[.elongate]⟩) (splitLines "A: !Ref b\nB: [ !Ref c".toList)
        (splitLines "A: \x7b \"Ref\" : \"b\" \x7d\nB: [ !Ref c".toList) := by
  have hexpand : expandValue "!Ref b".toList = .ok (.inline "\x7b \"Ref\" : \"b\" \x7d".toList) := by
    have hplain : flowAt false ['b'] = .ok (.plain ['b'], []) := by
      rw [flowAt_eq]
      rfl
    have htag : tagAt false "Ref b".toList = .ok (.call .ref (.plain ['b']), []) := by
      have hgap : afterGap ['b'] = ['b'] := rfl
      refine (tagAt_space .ref hgap).trans ?_
      rw [hplain]
      rfl
    refine (expandValue_mark "Ref b".toList).trans ?_
    rw [htag]
    rfl
  have hform : Form.of ⟨[.elongate]⟩ (Layout.of "A: !Ref b".toList) = .other := by decide
  have hvalue : (Layout.of "A: !Ref b".toList).value = "!Ref b".toList := rfl
  have hfirst (queue : List SourceLine) : step ⟨[.elongate]⟩ ⟨1, "A: !Ref b".toList⟩ queue =
      .ok ⟨["A: \x7b \"Ref\" : \"b\" \x7d".toList], queue⟩ := by
    rw [← hvalue] at hexpand
    rw [step_of_other hform hexpand]
    rfl
  have hsecond : step ⟨[.elongate]⟩ ⟨2, "B: [ !Ref c".toList⟩ [] = .ok ⟨["B: [ !Ref c".toList], []⟩ := rfl
  have hlines : numberLines 1 (splitLines (doubleQuotes "A: !Ref b\nB: [ !Ref c".toList)) =
      [⟨1, "A: !Ref b".toList⟩, ⟨2, "B: [ !Ref c".toList⟩] := rfl
  have hout : normalize ⟨[.elongate]⟩ "A: !Ref b\nB: [ !Ref c" = .ok "A: \x7b \"Ref\" : \"b\" \x7d\nB: [ !Ref c" := by
    rw [normalize, normalizeText, hlines, normalizeLines_of_step (hfirst _), normalizeLines_of_step hsecond,
      normalizeLines_nil]
    rfl
  exact ⟨hout, forall₂_rewritten_normalize rfl (by decide) hout⟩

end CloudTemplate.Shorthand
