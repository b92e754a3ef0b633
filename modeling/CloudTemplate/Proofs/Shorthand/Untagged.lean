import CloudTemplate.Proofs.Shorthand.Idempotence
/-! Documents without shorthand. A step puts out its line and the lines it takes as they are, so that nothing but the
quotes of such a document changes, whatever passes run. -/
namespace CloudTemplate.Shorthand

structure IsUntagged (text : List Char) : Prop where
  unmarked : '!' ∉ text
  unpaired : (Layout.of text).key ≠ none → ¬IsLongPair (Layout.of text).value

theorem hasMark_eq_false {cs : List Char} (h : '!' ∉ cs) : hasMark cs = false := by simpa [hasMark] using h

theorem IsUntagged.form_ne_longForm {text : List Char} (h : IsUntagged text) (options : Options) (name : String)
    (argument : List Char) : Form.of options (Layout.of text) ≠ .longForm name argument := by
  intro hform
  have hpair : IsLongPair (Layout.of text).value :=
    isSome_splitLongForm_iff.1 (by rw [Form.of_longForm hform]; rfl)
  exact h.unpaired (Form.key_of_longForm hform) hpair

/-- What a step leaves alone: its line and the lines it takes are put out as they are. -/
theorem step_of_isUntagged (options : Options) {line : SourceLine} {queue : List SourceLine} (hline : IsUntagged line.text)
    (hqueue : ∀ other ∈ queue, '!' ∉ other.text) :
    ∃ taken rest, queue = taken ++ rest ∧
      step options line queue = .ok ⟨line.text :: taken.map SourceLine.text, rest⟩ := by
  have hvalue : hasMark (Layout.of line.text).value = false := hasMark_eq_false (not_mem_value hline.unmarked)
  cases hform : Form.of options (Layout.of line.text) with
  | blockScalar =>
    refine ⟨bodyOf (Layout.of line.text).ownerColumn false queue, _, (bodyOf_append_drop _ _ _).symm, ?_⟩
    simp [step, settle, hform]
  | longForm name argument => exact absurd hform (hline.form_ne_longForm options name argument)
  | openFlow =>
    by_cases hmultiline : options.isEnabled .multiline = true
    · cases hjoin : joinFlow ((Layout.of line.text).lead ++ (Layout.of line.text).value) queue with
      | none => exact ⟨[], queue, rfl, by simp [step_unjoined hform hmultiline hjoin, hvalue]⟩
      | some result =>
        obtain ⟨joined, taken, rest⟩ := result
        obtain ⟨hsplit, hchars, -⟩ := joinFlow_ok hjoin
        have hjoined : hasMark joined = false := by
          refine hasMark_eq_false fun hmem => ?_
          obtain hmem | hmem | ⟨other, hother, hmem⟩ := hchars _ hmem
          · refine hline.unmarked ?_
            rw [← Layout.text_of line.text, Layout.text]
            exact List.mem_append_left _ hmem
          · contradiction
          · exact hqueue other (hsplit ▸ List.mem_append_left rest hother) (mem_of_mem_pieceOf hmem)
        exact ⟨taken, rest, hsplit, by simp [step_joined hform hmultiline hjoin, hjoined]⟩
    · exact ⟨[], queue, rfl, by simp [step, hform, hmultiline]⟩
  | other =>
    refine ⟨[], queue, rfl, ?_⟩
    simp [step, settle, hform, expandValue, hvalue, numbered, place, Layout.text_of, bind, Except.bind]

/-- A run over lines without shorthand. -/
theorem normalizeLines_of_isUntagged (options : Options) {queue : List SourceLine}
    (h : ∀ line ∈ queue, IsUntagged line.text) : normalizeLines options queue = .ok (queue.map SourceLine.text) := by
  have hstep (line : SourceLine) (queue : List SourceLine) (h : ∀ other ∈ line :: queue, IsUntagged other.text) :=
    step_of_isUntagged options (h line List.mem_cons_self) fun other hother =>
      (h other (List.mem_cons_of_mem line hother)).unmarked
  induction queue using runInduction options with
  | nil => exact normalizeLines_nil options
  | fault line queue fault hfault =>
    obtain ⟨_, _, -, hrun⟩ := hstep line queue h
    rw [hfault] at hrun
    contradiction
  | next line queue outcome hnext ih =>
    obtain ⟨taken, rest, rfl, hrun⟩ := hstep line queue h
    obtain rfl := Except.ok.inj (hnext.symm.trans hrun)
    rw [normalizeLines_of_step hrun, ih fun other hother => h other (by simp [hother])]
    simp [Except.map]

/-- A document without a mark and without a long form behind a key keeps its text, with double quotes for single ones. -/
theorem normalize_of_untagged (options : Options) (text : String) (hmark : '!' ∉ text.toList)
    (hpairs : ∀ line ∈ splitLines (doubleQuotes text.toList),
      (Layout.of line).key ≠ none → ¬IsLongPair (Layout.of line).value) :
    normalize options text = .ok (String.ofList (doubleQuotes text.toList)) := by
  have hlines : ∀ line ∈ numberLines 1 (splitLines (doubleQuotes text.toList)), IsUntagged line.text := by
    intro line hline
    have hmem : line.text ∈ splitLines (doubleQuotes text.toList) := by
      rw [← map_text_numberLines 1 (splitLines (doubleQuotes text.toList))]
      exact List.mem_map_of_mem hline
    refine ⟨fun hmarked => ?_, hpairs line.text hmem⟩
    obtain hquote | htext := mem_of_mem_doubleQuotes (mem_of_mem_splitLines _ hmem _ hmarked).1
    · contradiction
    · exact hmark htext
  have hrun : normalizeText options text.toList = .ok (doubleQuotes text.toList) := by
    rw [normalizeText, normalizeLines_of_isUntagged options hlines, map_text_numberLines]
    simp only [joinLines_splitLines]
  rw [normalize, hrun]

/-- A document with a block scalar, a collection over two lines, one that is never closed, and comments. -/
theorem normalize_untagged_sections :
    normalize ⟨[.correctLong, .multiline]⟩ "A: |\n  it's [Ref: x\n\t# 'c'\nB: [1, # two\n  '2']\n\n- Ref: b\nC: \x7bopen\n" =
      .ok "A: |\n  it\"s [Ref: x\n\t# \"c\"\nB: [1, # two\n  \"2\"]\n\n- Ref: b\nC: \x7bopen\n" :=
  normalize_of_untagged ⟨[.correctLong, .multiline]⟩
    "A: |\n  it's [Ref: x\n\t# 'c'\nB: [1, # two\n  '2']\n\n- Ref: b\nC: \x7bopen\n" (by decide) (by decide)

end CloudTemplate.Shorthand
