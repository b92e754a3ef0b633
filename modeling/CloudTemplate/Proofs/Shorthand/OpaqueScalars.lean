import CloudTemplate.Proofs.Shorthand.StableLines
import CloudTemplate.Proofs.Shorthand.ApartRuns
/-! Block scalars. The lines further in than the one that announces a scalar are put out as they are, whatever they hold
and whichever passes run, and the lines behind them are normalized as they are by themselves. -/
namespace CloudTemplate.Shorthand

theorem Layout.value_of_isBlankText {text : List Char} (h : Text.isBlankText text = true) : (Layout.of text).value = [] := by
  let rest := text.drop (takeOpening text).length
  have hrest : ∀ c ∈ rest, Text.isBlank c = true := fun c hc => List.all_eq_true.1 h c (List.mem_of_mem_drop hc)
  have hcolon : ':' ∉ rest := fun hmem => absurd (hrest _ hmem) (by decide)
  have hsharp : '#' ∉ rest := fun hmem => absurd (hrest _ hmem) (by decide)
  have hkey : splitKey rest = none := by
    cases hcs : rest with
    | nil => rfl
    | cons c cs =>
      rw [splitKey, ← hcs, splitKeyFrom_eq_none hcolon, ite_self]
  have hend : Text.trimEnd rest = [] := Text.trimEnd_append_blank [] hrest
  have hof : Layout.of text = Layout.ofRest (takeOpening text) none rest := by
    simp only [Layout.of, rest, hkey]
  simp only [hof, Layout.ofRest, splitCommentFrom_eq hsharp, hend]

theorem expansionOf_of_value_nil (options : Options) {text : List Char} (h : (Layout.of text).value = []) :
    Form.of options (Layout.of text) = .other ∧ expandValue (Layout.of text).value = .ok .unchanged := by
  refine ⟨Form.of_eq_other (by rw [h]; rfl) (.inr (by rw [h]; rfl)) fun hopens => ?_, by rw [h]; rfl⟩
  rw [h] at hopens
  contradiction

/-- A line without a value is put out as it is. -/
theorem step_of_value_nil (options : Options) {line : SourceLine} (h : (Layout.of line.text).value = [])
    (queue : List SourceLine) : step options line queue = .ok ⟨[line.text], queue⟩ := by
  obtain ⟨hform, hexpansion⟩ := expansionOf_of_value_nil options h
  simp only [step, settle, hform, hexpansion, reduceCtorEq, if_false]
  simp only [numbered, bind, Except.bind, place, Layout.text_of]

theorem ApartRun.of_value_nil {options : Options} {rest queue : List SourceLine}
    (h : ∀ line ∈ queue, (Layout.of line.text).value = []) : ApartRun options rest queue := by
  induction queue with
  | nil => exact .nil
  | cons line queue ih =>
    rw [List.forall_mem_cons] at h
    refine .cons ?_ fun outcome hstep => ?_
    · rw [step_of_value_nil options h.1, step_of_value_nil options h.1]
      rfl
    · rw [step_of_value_nil options h.1] at hstep
      cases hstep
      exact ih h.2

theorem normalizeLines_of_value_nil (options : Options) {queue : List SourceLine}
    (h : ∀ line ∈ queue, (Layout.of line.text).value = []) :
    normalizeLines options queue = .ok (queue.map SourceLine.text) := by
  induction queue with
  | nil => exact normalizeLines_nil options
  | cons line queue ih =>
    rw [List.forall_mem_cons] at h
    rw [normalizeLines_of_step (step_of_value_nil options h.1 queue), ih h.2]
    rfl

section Scalars

variable {options : Options} {header : SourceLine} {body rest : List SourceLine}

theorem step_scalar (hindicator : isBlockIndicator (Layout.of header.text).value = true) (queue : List SourceLine) :
    step options header queue =
      .ok ⟨header.text :: (bodyOf (Layout.of header.text).ownerColumn false queue).map SourceLine.text,
        queue.drop (bodyOf (Layout.of header.text).ownerColumn false queue).length⟩ := by
  have hform : Form.of options (Layout.of header.text) = .blockScalar := by rw [Form.of, if_pos hindicator]
  simp only [step, settle, hform, reduceCtorEq, if_false]

/-- A scalar is put out as it is, and does the same whatever stands behind it no further in than its owner. -/
theorem apartRun_scalar (hindicator : isBlockIndicator (Layout.of header.text).value = true)
    (hbody : ∀ line ∈ body, belongs (Layout.of header.text).ownerColumn false line.text = true)
    (hrest : ∀ n ∈ firstIndentation (rest.map SourceLine.text), n ≤ (Layout.of header.text).ownerColumn) :
    ApartRun options rest (header :: body) ∧
      normalizeLines options (header :: body) = .ok ((header :: body).map SourceLine.text) := by
  -- Blank lines at the end of the scalar are left to the run, which puts them out by themselves.
  obtain ⟨blanks, hsplit, hblanks⟩ := exists_dropBlankEnd_append body
  have hvalues : ∀ line ∈ blanks, (Layout.of line.text).value = [] :=
    fun line hline => Layout.value_of_isBlankText (hblanks line hline)
  have hown : bodyOf (Layout.of header.text).ownerColumn false body = dropBlankEnd body := by
    rw [bodyOf, List.takeWhile_eq_self_iff.2 hbody]
  have hbehind : bodyOf (Layout.of header.text).ownerColumn false (body ++ rest) = dropBlankEnd body := by
    rw [bodyOf_append_outside body (belongs_of_firstIndentation hrest), hown]
  generalize dropBlankEnd body = kept at hsplit hown hbehind
  subst hsplit
  have hstep : step options header (kept ++ blanks) = .ok ⟨header.text :: kept.map SourceLine.text, blanks⟩ := by
    rw [step_scalar hindicator, hown, List.drop_left]
  constructor
  · refine .cons ?_ fun outcome houtcome => ?_
    · rw [hstep, step_scalar hindicator, hbehind, List.append_assoc, List.drop_left]
      rfl
    · rw [hstep] at houtcome
      cases houtcome
      exact .of_value_nil hvalues
  · rw [normalizeLines_of_step hstep, normalizeLines_of_value_nil options hvalues]
    simp [Except.map]

end Scalars

theorem takeWhile_isBlank_doubleQuotes (cs : List Char) :
    (doubleQuotes cs).takeWhile Text.isBlank = cs.takeWhile Text.isBlank := by
  induction cs with
  | nil => rfl
  | cons c cs ih =>
    by_cases hquote : c = '\''
    · subst hquote
      rfl
    · rw [doubleQuotes, List.map_cons, if_neg hquote, List.takeWhile_cons, List.takeWhile_cons, ← doubleQuotes, ih]

theorem isBlankText_doubleQuotes (cs : List Char) : Text.isBlankText (doubleQuotes cs) = Text.isBlankText cs := by
  induction cs with
  | nil => rfl
  | cons c cs ih =>
    by_cases hquote : c = '\''
    · subst hquote
      rfl
    · rw [doubleQuotes, List.map_cons, if_neg hquote, ← doubleQuotes]
      simp only [Text.isBlankText, List.all_cons] at ih ⊢
      rw [ih]

/-- Double quotes for single ones leave lines where they are. -/
theorem firstIndentation_linesOf (text : String) :
    firstIndentation (linesOf text) = firstIndentation (splitLines text.toList) := by
  rw [linesOf, splitLines_doubleQuotes]
  induction splitLines text.toList with
  | nil => rfl
  | cons line lines ih =>
    rw [List.map_cons]
    cases hblank : Text.isBlankText line with
    | true =>
      rw [firstIndentation_of_isBlankText hblank, firstIndentation_of_isBlankText (by rwa [isBlankText_doubleQuotes]), ih]
    | false =>
      rw [firstIndentation_of_not_isBlankText hblank,
        firstIndentation_of_not_isBlankText (by rwa [isBlankText_doubleQuotes]), Text.indentation, Text.indentation,
        takeWhile_isBlank_doubleQuotes]

/-- A block scalar is put out as it is by any passes, and what follows it is normalized as it is by itself. A fault in what
follows names its line in the whole document. -/
theorem normalize_blockScalar (options : Options) {scalar : String} {header : List Char} {body : List (List Char)}
    (hlines : splitLines scalar.toList = header :: body) (hquote : '\'' ∉ scalar.toList)
    (hindicator : isBlockIndicator (Layout.of header).value = true)
    (hbody : ∀ line ∈ body, Text.isBlankText line = true ∨ (Layout.of header).ownerColumn < Text.indentation line) :
    normalize options scalar = .ok scalar ∧
      ∀ rest : String, (∀ n ∈ firstIndentation (splitLines rest.toList), n ≤ (Layout.of header).ownerColumn) →
        normalize options (scalar ++ "\n" ++ rest) =
          match normalize options rest with
          | .ok out => .ok (scalar ++ "\n" ++ out)
          | .error fault => .error ⟨(header :: body).length + fault.line, fault.cause⟩ := by
  have hscalar : linesOf scalar = header :: body := by rw [linesOf, doubleQuotes_of_not_mem hquote, hlines]
  have hbelongs : ∀ line ∈ numberLines 2 body, belongs (Layout.of header).ownerColumn false line.text = true := by
    intro line hline
    have hmem : line.text ∈ body := by
      have htext := List.mem_map_of_mem (f := SourceLine.text) hline
      rwa [map_text_numberLines] at htext
    have hline := hbody line.text hmem
    simpa [belongs] using hline
  -- Whatever follows, the scalar takes its body and leaves the rest of the queue as it is.
  have happart {rest : List SourceLine}
      (hrest : ∀ n ∈ firstIndentation (rest.map SourceLine.text), n ≤ (Layout.of header).ownerColumn) :
      ApartRun options rest (⟨1, header⟩ :: numberLines 2 body) ∧
        normalizeLines options (⟨1, header⟩ :: numberLines 2 body) =
          .ok ((⟨1, header⟩ :: numberLines 2 body).map SourceLine.text) :=
    apartRun_scalar hindicator hbelongs hrest
  have hself : normalize options scalar = .ok scalar := by
    have hrun := (@happart [] (by simp [firstIndentation])).2
    rw [List.map_cons, map_text_numberLines, ← numberLines, ← hscalar] at hrun
    rw [normalize_of_run hrun, hscalar, ← hlines, joinLines_splitLines, String.ofList_toList]
  refine ⟨hself, fun rest hrest => ?_⟩
  have hparts : ApartRun options (numberLines ((linesOf scalar).length + 1) (linesOf rest))
      (numberLines 1 (linesOf scalar)) := by
    rw [hscalar, numberLines]
    refine (happart ?_).1
    rwa [map_text_numberLines, firstIndentation_linesOf]
  rw [normalize_parts hparts, hself, hscalar]
  cases normalize options rest <;> rfl

/-- A scalar in an item, with a tag, a bracket, a quote and a comment in it and blank lines at its end, before lines that
cannot be normalized. -/
theorem normalize_blockScalar_item :
    normalize .standard "- k: >-\n   !Ref [a: # \"x\n\n\t\t\tz: |\n   " = .ok "- k: >-\n   !Ref [a: # \"x\n\n\t\t\tz: |\n   " ∧
      normalize .standard "\n  b: 1\n  n: !Nope z" = .error ⟨3, .flow (.unknownTag "Nope")⟩ ∧
        normalize .standard ("- k: >-\n   !Ref [a: # \"x\n\n\t\t\tz: |\n   " ++ "\n" ++ "\n  b: 1\n  n: !Nope z") =
          .error ⟨8, .flow (.unknownTag "Nope")⟩ := by
  have hfault : normalize .standard "\n  b: 1\n  n: !Nope z" = .error ⟨3, .flow (.unknownTag "Nope")⟩ := by
    decide +kernel
  have hscalar := @normalize_blockScalar .standard "- k: >-\n   !Ref [a: # \"x\n\n\t\t\tz: |\n   " "- k: >-".toList
    ["   !Ref [a: # \"x".toList, [], "\t\t\tz: |".toList, "   ".toList] (by decide) (by decide) (by decide) (by decide)
  refine ⟨hscalar.1, hfault, ?_⟩
  rw [hscalar.2 _ (by decide), hfault]
  rfl

end CloudTemplate.Shorthand
