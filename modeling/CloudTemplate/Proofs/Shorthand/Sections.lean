import CloudTemplate.Proofs.Shorthand.Idempotence
import CloudTemplate.Proofs.Shorthand.ApartRuns
/-! Sections of a document. A line at column 0 that is no item belongs to no line before it, and a line whose brackets
balance takes none that does not belong to it. So a run over balanced lines does the same whatever section stands behind
them, and the section is normalized as it is by itself. -/
namespace CloudTemplate.Shorthand

/-- Whether a line stands at column 0 and is no item of a list. -/
structure StartsSection (line : List Char) : Prop where
  unindented : ∃ c cs, line = c :: cs ∧ Text.isBlank c = false
  noItem : ['-', ' '].isPrefixOf line = false
  noMarker : Text.trimEnd line ≠ ['-']

theorem StartsSection.belongs {line : List Char} (h : StartsSection line) (owner : Nat) (underKey : Bool) :
    belongs owner underKey line = false := by
  obtain ⟨⟨c, cs, rfl, hc⟩, hitem, hmarker⟩ := h
  have hblank : Text.isBlankText (c :: cs) = false := by simp [Text.isBlankText, hc]
  simp [Shorthand.belongs, indentation_cons hc, trimStart_cons hc, hblank, hitem, hmarker]

def HeadStartsSection (lines : List SourceLine) : Prop := ∀ line ∈ lines.head?, StartsSection line.text

section Steps

variable {options : Options} {rest : List SourceLine}

theorem bodyOf_append_section (hrest : HeadStartsSection rest) (owner : Nat) (underKey : Bool) (queue : List SourceLine) :
    bodyOf owner underKey (queue ++ rest) = bodyOf owner underKey queue := by
  refine bodyOf_append_outside queue fun line hline => ?_
  cases rest with
  | nil => contradiction
  | cons first rest =>
    have hfirst := hrest first rfl
    have hblank : Text.isBlankText first.text = false := by
      have hbelongs := hfirst.belongs owner underKey
      simp only [belongs, Bool.or_eq_false_iff] at hbelongs
      exact hbelongs.1.1
    rw [firstFilled, List.map_cons, List.find?_cons_of_pos (by simp [hblank])] at hline
    cases hline
    exact hfirst.belongs owner underKey

def IsFlat (text : List Char) : Prop := bracketBalance (Layout.of text).value ≤ 0

theorem isOpen_eq_false_iff {text : List Char} : isOpen text = false ↔ IsFlat text := by
  simp [isOpen, IsFlat]

instance (text : List Char) : Decidable (IsFlat text) := inferInstanceAs (Decidable (_ ≤ _))

theorem IsFlat.form_ne_openFlow {text : List Char} (h : IsFlat text) (options : Options) :
    Form.of options (Layout.of text) ≠ .openFlow := fun hopen => Int.not_lt.2 h (Form.of_openFlow hopen).2

inductive FlatRun (options : Options) : List SourceLine → Prop
  | nil : FlatRun options []
  | fault {line : SourceLine} {queue : List SourceLine} {fault : LineFault} (h : IsFlat line.text)
      (hstep : step options line queue = .error fault) : FlatRun options (line :: queue)
  | step {line : SourceLine} {queue : List SourceLine} {outcome : Outcome} (h : IsFlat line.text)
      (hstep : step options line queue = .ok outcome) (hrest : FlatRun options outcome.queue) :
      FlatRun options (line :: queue)

/-- Flat lines do the same whatever section stands behind them. -/
theorem ApartRun.of_flat {queue : List SourceLine} (h : FlatRun options queue) (hrest : HeadStartsSection rest) :
    ApartRun options rest queue := by
  have happend {line : SourceLine} (hline : IsFlat line.text) (queue : List SourceLine) :
      step options line (queue ++ rest) = (step options line queue).map (·.append rest) :=
    step_append (hline.form_ne_openFlow options) fun _ => bodyOf_append_section hrest _ _ queue
  induction h with
  | nil => exact .nil
  | fault hline hstep => exact .cons (happend hline _) fun outcome hnext => by simp [hstep] at hnext
  | @step line queue outcome hline hstep _ ih =>
    refine .cons (happend hline queue) fun other hnext => ?_
    obtain rfl : outcome = other := Except.ok.inj (hstep.symm.trans hnext)
    exact ih

/-- A run over flat lines and a section behind them is the run over the lines and then the run over the section. -/
theorem normalizeLines_append {queue : List SourceLine} (h : FlatRun options queue) (hrest : HeadStartsSection rest) :
    normalizeLines options (queue ++ rest) =
      (normalizeLines options queue).bind fun lines => (normalizeLines options rest).map (lines ++ ·) :=
  (ApartRun.of_flat h hrest).run_append

end Steps

theorem Layout.value_of_spaces (n : Nat) (cs : List Char) :
    (Layout.of (Text.spaces n ++ cs)).value = (Layout.of cs).value := by
  have hopening := (Opening.spaces n).takeOpening_append cs
  simp only [Layout.of, hopening, List.length_append, List.drop_length_add_append]
  cases splitKey (cs.drop (takeOpening cs).length) <;> rfl

theorem isFlat_spaces {n : Nat} {cs : List Char} : IsFlat (Text.spaces n ++ cs) ↔ IsFlat cs := by
  rw [IsFlat, Layout.value_of_spaces, IsFlat]

structure StaysFlat (text : List Char) : Prop where
  flat : IsFlat text
  moved : IsFlat (Text.trimStart text)

theorem StaysFlat.of_mem_reindent {column : Nat} {lines : List SourceLine} (h : ∀ line ∈ lines, StaysFlat line.text) :
    ∀ line ∈ reindent column lines, StaysFlat line.text := by
  intro line hline
  obtain ⟨source, hsource, rfl⟩ := List.mem_map.1 hline
  split
  · have hempty : IsFlat [] := by decide
    exact ⟨hempty, hempty⟩
  · have hmoved := (h source hsource).moved
    refine ⟨isFlat_spaces.2 hmoved, ?_⟩
    rwa [trimStart_spaces, Text.trimStart, Text.trimStart, List.dropWhile_idempotent]

/-- Lines that stay flat are all that a run over them comes to. -/
theorem flatRun_of_staysFlat (options : Options) {queue : List SourceLine} (h : ∀ line ∈ queue, StaysFlat line.text) :
    FlatRun options queue := by
  induction queue using runInduction options with
  | nil => exact .nil
  | fault line queue fault hstep => exact .fault (h line List.mem_cons_self).flat hstep
  | next line queue outcome hstep ih =>
    rw [List.forall_mem_cons] at h
    refine .step h.1.flat hstep (ih fun other hother => ?_)
    obtain hmem | ⟨column, body, hbody, hmem⟩ := mem_queue_of_step hstep other hother
    · exact h.2 other hmem
    · exact StaysFlat.of_mem_reindent (fun source hsource => h.2 source (hbody hsource)) other hmem

/-- Flat lines that are indented with spaces stay flat. -/
theorem flatRun_of_spaces (options : Options) {queue : List SourceLine} (hflat : ∀ line ∈ queue, IsFlat line.text)
    (hspaces : ∀ line ∈ queue, (line.text.takeWhile Text.isBlank).all Text.isSpace = true) : FlatRun options queue := by
  refine flatRun_of_staysFlat options fun line hline => ⟨hflat line hline, ?_⟩
  have hindent : ∀ c ∈ line.text.takeWhile Text.isBlank, c = ' ' := fun c hc =>
    beq_iff_eq.1 (List.all_eq_true.1 (hspaces line hline) c hc)
  have htext : Text.spaces (line.text.takeWhile Text.isBlank).length ++ Text.trimStart line.text = line.text := by
    rw [Text.spaces, ← List.eq_replicate_of_mem hindent]
    exact List.takeWhile_append_dropWhile
  exact isFlat_spaces.1 (htext.symm ▸ hflat line hline)

/-- A document of two parts, the second of which starts a section, is normalized part by part. A fault in the second
part names its line in the whole document. -/
theorem normalize_append {options : Options} {a b : String}
    (hflat : FlatRun options (numberLines 1 (splitLines (doubleQuotes a.toList))))
    (hsection : ∀ line ∈ (splitLines (doubleQuotes b.toList)).head?, StartsSection line) :
    normalize options (a ++ "\n" ++ b) =
      match normalize options a, normalize options b with
      | .error fault, _ => .error fault
      | .ok x, .ok y => .ok (x ++ "\n" ++ y)
      | .ok _, .error fault => .error ⟨(splitLines a.toList).length + fault.line, fault.cause⟩ := by
  -- Both parts are runs over lines of one document; the second one has its numbers shifted.
  let lines := splitLines (doubleQuotes a.toList)
  let more := splitLines (doubleQuotes b.toList)
  have hcount : lines.length = (splitLines a.toList).length := by simp [lines, splitLines_doubleQuotes]
  have hnumbers : numberLines 1 (splitLines (doubleQuotes (a ++ "\n" ++ b).toList)) =
      numberLines 1 lines ++ (numberLines 1 more).map (.renumber (· + lines.length)) := by
    rw [splitLines_doubleQuotes_append, numberLines_append, numberLines_add]
  have hstart : HeadStartsSection ((numberLines 1 more).map (.renumber (· + lines.length))) := by
    intro line hline
    have htext := Option.mem_map_of_mem SourceLine.text hline
    rw [← List.head?_map, map_text_renumber, map_text_numberLines] at htext
    exact hsection line.text htext
  have hrun := normalizeLines_append hflat hstart
  rw [normalizeLines_renumber, ← hnumbers] at hrun
  simp only [normalize, normalizeText, hrun]
  cases ha : normalizeLines options (numberLines 1 lines) with
  | error fault => rfl
  | ok out =>
    cases hb : normalizeLines options (numberLines 1 more) with
    | error fault =>
      have hline : fault.line + lines.length = (splitLines a.toList).length + fault.line := by
        rw [hcount, Nat.add_comm]
      simp only [Except.bind, Except.map, Except.mapError, LineFault.renumber, hline]
    | ok rest =>
      have hout := normalizeLines_ne_nil (numberLines_ne_nil 1 _) ha
      have hrest := normalizeLines_ne_nil (numberLines_ne_nil 1 _) hb
      have htext : String.ofList (joinLines (out ++ rest)) =
          String.ofList (joinLines out) ++ "\n" ++ String.ofList (joinLines rest) := by
        rw [joinLines_append hout hrest, ← String.toList_inj]
        simp
      simp only [Except.bind, Except.map, Except.mapError, htext]

/-- The fault of a second section, behind items that stand at the column of their key. -/
theorem normalize_append_fault :
    normalize .standard "A: !Join\n- x\n- !Ref y" = .ok "A:\n  Fn::Join:\n    - x\n    - \x7b \"Ref\" : \"y\" \x7d" ∧
      normalize .standard "B: 1\nC: !Nope z" = .error ⟨2, .flow (.unknownTag "Nope")⟩ ∧
        normalize .standard ("A: !Join\n- x\n- !Ref y" ++ "\n" ++ "B: 1\nC: !Nope z") =
          .error ⟨5, .flow (.unknownTag "Nope")⟩ := by
  have hfirst : normalize .standard "A: !Join\n- x\n- !Ref y" =
      .ok "A:\n  Fn::Join:\n    - x\n    - \x7b \"Ref\" : \"y\" \x7d" := by decide +kernel
  have hsecond : normalize .standard "B: 1\nC: !Nope z" = .error ⟨2, .flow (.unknownTag "Nope")⟩ := by decide +kernel
  have hflat : FlatRun .standard (numberLines 1 (splitLines (doubleQuotes "A: !Join\n- x\n- !Ref y".toList))) :=
    flatRun_of_spaces .standard (by decide) (by decide)
  have hsection : ∀ line ∈ (splitLines (doubleQuotes "B: 1\nC: !Nope z".toList)).head?, StartsSection line := by
    intro line hline
    obtain rfl : "B: 1".toList = line := Option.some.inj hline
    exact ⟨⟨'B', _, rfl, by decide⟩, by decide, by decide⟩
  refine ⟨hfirst, hsecond, ?_⟩
  rw [normalize_append hflat hsection, hfirst, hsecond]
  rfl

/-- A line that is flat behind a tab opens a collection once it is moved below its function, and takes the section
behind it. -/
theorem normalize_append_tab :
    (∀ line ∈ splitLines "K: !Join\n\t[x:".toList, IsFlat line) ∧
      (∀ line ∈ (splitLines "B: !Ref c]".toList).head?, StartsSection line) ∧
      normalize .standard "K: !Join\n\t[x:" = .ok "K:\n  Fn::Join:\n    [x:" ∧
      normalize .standard "B: !Ref c]" = .ok "B: \x7b \"Ref\" : \"c]\" \x7d" ∧
      normalize .standard ("K: !Join\n\t[x:" ++ "\n" ++ "B: !Ref c]") = .ok "K:\n  Fn::Join:\n    [x: B: !Ref c]" ∧
      normalize .standard ("K: !Join\n\t[x:" ++ "\n" ++ "B: !Ref c]") ≠
        .ok ("K:\n  Fn::Join:\n    [x:" ++ "\n" ++ "B: \x7b \"Ref\" : \"c]\" \x7d") := by
  have hsection : ∀ line ∈ (splitLines "B: !Ref c]".toList).head?, StartsSection line := by
    intro line hline
    obtain rfl : "B: !Ref c]".toList = line := Option.some.inj hline
    exact ⟨⟨'B', _, rfl, by decide⟩, by decide, by decide⟩
  exact ⟨by decide, hsection, by decide +kernel, by decide +kernel, by decide +kernel, by decide +kernel⟩

end CloudTemplate.Shorthand
