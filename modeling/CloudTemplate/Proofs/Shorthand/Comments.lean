import CloudTemplate.Proofs.Shorthand.OpaqueScalars
import CloudTemplate.Proofs.Shorthand.Sections
/-! Comments on lines of their own. A comment at column 0 stays where it is, and the lines before it and behind it are
normalized as if they were documents. So it changes nothing else where no block reaches past it. -/
namespace CloudTemplate.Shorthand

theorem Layout.value_of_comment (cs : List Char) : (Layout.of ('#' :: cs)).value = [] :=
  congrArg Layout.value (Layout.of_comment 0 cs)

theorem startsSection_comment (cs : List Char) : StartsSection ('#' :: cs) where
  unindented := ⟨'#', cs, rfl, by decide⟩
  noItem := rfl
  noMarker h := by
    have hrest := Text.trimEnd_append_rest ('#' :: cs)
    rw [h] at hrest
    exact absurd (List.cons.inj hrest).1 (by decide)

theorem takesBlock_of_value_nil (options : Options) {text : List Char} (h : (Layout.of text).value = []) :
    takesBlock options text = false := by
  obtain ⟨hform, hexpansion⟩ := expansionOf_of_value_nil options h
  simp [takesBlock, expansionOf, hform, hexpansion, Except.toOption, Expansion.isBlock]

theorem Layout.le_ownerColumn_spaces (n : Nat) (cs : List Char) :
    n ≤ (Layout.of (Text.spaces n ++ cs)).ownerColumn := by
  have hspaces : (Text.spaces n).length = n := List.length_replicate
  obtain ⟨opening, hopening⟩ : ∃ opening, (Layout.of (Text.spaces n ++ cs)).opening = Text.spaces n ++ opening := by
    refine ⟨takeOpening cs, ?_⟩
    rw [← (Opening.spaces n).takeOpening_append]
    simp only [Layout.of]
    split <;> rfl
  generalize Layout.of (Text.spaces n ++ cs) = layout at hopening
  have hdash : ∀ column ∈ layout.dashColumn, n ≤ column := by
    intro column hcolumn
    have hplain : ∀ c ∈ (Text.spaces n).reverse, (c != '-') = true := by
      intro c hc
      rw [List.eq_of_mem_replicate (List.mem_reverse.1 hc)]
      rfl
    have hfront : (Text.spaces n).reverse.dropWhile (· != '-') = [] := List.dropWhile_eq_nil_iff.2 hplain
    simp only [Layout.dashColumn, hopening, List.reverse_append, List.dropWhile_append, hfront] at hcolumn
    cases hbehind : opening.reverse.dropWhile (· != '-') with
    | nil => simp [hbehind] at hcolumn
    | cons c cs =>
      simp only [hbehind, List.isEmpty_cons, Bool.false_eq_true, if_false, List.cons_append, List.length_cons,
        List.length_append, List.length_reverse, hspaces, Option.mem_def, Option.some.injEq] at hcolumn
      omega
  rw [Layout.ownerColumn]
  split
  · rename_i column _ hkey
    rw [Layout.keyColumn, Option.map_eq_some_iff] at hkey
    obtain ⟨-, -, rfl⟩ := hkey
    rw [hopening, List.length_append, hspaces]
    exact Nat.le_add_right _ _
  · rename_i column _ hcolumn
    exact hdash column hcolumn
  · have hindent : ∀ c ∈ Text.spaces n, Text.isSpace c = true := fun c hc => by rw [List.eq_of_mem_replicate hc]; rfl
    rw [Layout.indent, hopening, List.takeWhile_append_of_pos hindent, List.length_append, hspaces]
    exact Nat.le_add_right _ _

theorem ownerColumn_lt_blockColumn (layout : Layout) {names : List String} (h : names ≠ []) :
    layout.ownerColumn < blockColumn layout names := by
  have hle := layout.ownerColumn_le
  have hlength := List.length_pos_iff.2 h
  rw [blockColumn]
  cases hkey : layout.key with
  | none =>
    simp only [Layout.keyColumn, hkey, Option.map_none, Layout.lead, List.append_nil]
    omega
  | some parts =>
    simp only [Layout.keyColumn, hkey, Option.map_some]
    omega

theorem isNamed_expansionOf {options : Options} {text : List Char} {expansion : Expansion}
    (h : expansionOf options text = .ok expansion) : expansion.IsNamed := by
  rw [expansionOf] at h
  split at h
  · exact isNamed_expandLongForm h
  · exact isNamed_expandValue h

section Blocks

variable {options : Options} {rest : List SourceLine}

/-- Whether no line takes lines that stand behind all of them. -/
def BlocksEnd (options : Options) (rest : List SourceLine) : List SourceLine → Prop
  | [] => True
  | line :: queue =>
    (takesBlock options line.text = true →
        ownBody options line.text (queue ++ rest) = ownBody options line.text queue) ∧
      BlocksEnd options rest queue

instance BlocksEnd.decidable (options : Options) (rest : List SourceLine) :
    (queue : List SourceLine) → Decidable (BlocksEnd options rest queue)
  | [] => .isTrue trivial
  | _ :: queue => @instDecidableAnd _ _ inferInstance (BlocksEnd.decidable options rest queue)

theorem BlocksEnd.of_append {front queue : List SourceLine} (h : BlocksEnd options rest (front ++ queue)) :
    BlocksEnd options rest queue := by
  induction front with
  | nil => exact h
  | cons line front ih => exact ih h.2

/-- What is left for another step: a part of the lines behind, or the block of the line, moved, before those behind it. -/
theorem queue_of_settle {number : Nat} {text : List Char} {queue : List SourceLine} {outcome : Outcome}
    (h : settle options number text queue = .ok outcome) :
    outcome.queue <:+ queue ∨
      ∃ column, (Layout.of text).ownerColumn < column ∧ takesBlock options text = true ∧
        outcome.queue = reindent column (ownBody options text queue) ++ queue.drop (ownBody options text queue).length := by
  by_cases hform : Form.of options (Layout.of text) = .blockScalar
  · simp only [settle, hform] at h
    cases h
    exact .inl (List.drop_suffix _ _)
  · rw [settle_of_ne_blockScalar hform] at h
    cases hexpansion : expansionOf options text with
    | error fault =>
      rw [hexpansion] at h
      contradiction
    | ok expansion =>
      have hnamed := isNamed_expansionOf hexpansion
      rw [hexpansion] at h
      simp only [numbered, Except.bind] at h
      cases expansion with
      | unchanged =>
        cases h
        exact .inl (List.suffix_refl _)
      | inline value =>
        simp only [place] at h
        split at h <;> cases h <;> exact .inl (List.suffix_refl _)
      | block names indicator =>
        simp only [place] at h
        split at h
        · cases h
          exact .inl (List.suffix_refl _)
        · split at h
          · cases h
            exact .inl (List.drop_suffix _ _)
          · split at h
            · contradiction
            · cases h
              refine .inr ⟨_, ownerColumn_lt_blockColumn (Layout.of text) hnamed, ?_, ?_⟩
              · simp [takesBlock, hexpansion, Except.toOption, Expansion.isBlock]
              · rw [ownBody, bne_iff_ne.2 hform, Bool.true_and]

/-- Blocks in lines that are moved end before lines no further in than their owner. -/
theorem BlocksEnd.of_moved {owner column : Nat} (howner : owner < column) {tail : List SourceLine}
    (htail : ∀ n ∈ firstIndentation (tail.map SourceLine.text), n ≤ owner)
    (hrest : ∀ n ∈ firstIndentation ((tail ++ rest).map SourceLine.text), n ≤ owner) (hend : BlocksEnd options rest tail)
    {moved : List SourceLine}
    (hmoved : ∀ line ∈ moved, line.text = [] ∨ ∃ n cs, column ≤ n ∧ line.text = Text.spaces n ++ cs) :
    BlocksEnd options rest (moved ++ tail) := by
  induction moved with
  | nil => exact hend
  | cons line moved ih =>
    rw [List.forall_mem_cons] at hmoved
    rw [List.cons_append, BlocksEnd]
    refine ⟨fun htakes => ?_, ih hmoved.2⟩
    obtain hnil | ⟨n, cs, hn, htext⟩ := hmoved.1
    · rw [takesBlock_of_value_nil options (by rw [hnil]; rfl)] at htakes
      contradiction
    · have hlt : owner < (Layout.of line.text).ownerColumn := by
        have hle := Layout.le_ownerColumn_spaces n cs
        rw [← htext] at hle
        omega
      have houtside {lines : List SourceLine} (h : ∀ n ∈ firstIndentation (lines.map SourceLine.text), n ≤ owner) :
          ownBody options line.text (moved ++ lines) = ownBody options line.text moved :=
        bodyOf_append_outside moved fun other hother => belongs_of_lt hlt (belongs_of_firstIndentation h other hother) _
      rw [List.append_assoc, houtside hrest, houtside htail]

theorem BlocksEnd.settle {number : Nat} {text : List Char} {queue : List SourceLine} {outcome : Outcome}
    (hend : BlocksEnd options rest (⟨number, text⟩ :: queue)) (h : settle options number text queue = .ok outcome) :
    BlocksEnd options rest outcome.queue := by
  obtain ⟨front, rfl⟩ | ⟨column, hcolumn, htakes, hqueue⟩ := queue_of_settle h
  · exact hend.2.of_append
  · have hown := hend.1 htakes
    have hbehind := firstIndentation_drop_bodyOf (Layout.of text).ownerColumn
      (Form.of options (Layout.of text) != .blockScalar && (Layout.of text).keyColumn.isSome) (queue ++ rest)
    rw [← ownBody, hown, ownBody, drop_bodyOf_append, ← ownBody] at hbehind
    have htail := hend.2
    rw [← bodyOf_append_drop (Layout.of text).ownerColumn
      (Form.of options (Layout.of text) != .blockScalar && (Layout.of text).keyColumn.isSome) queue, ← ownBody] at htail
    rw [hqueue]
    exact .of_moved hcolumn (firstIndentation_drop_bodyOf _ _ queue) hbehind htail.of_append
      fun line hline => exists_spaces_of_mem_reindent hline

/-- Flat lines whose blocks end before other lines do the same with them and without. -/
theorem ApartRun.of_blocksEnd {queue : List SourceLine} (hflat : FlatRun options queue)
    (hend : BlocksEnd options rest queue) : ApartRun options rest queue := by
  induction hflat with
  | nil => exact .nil
  | fault hline hstep =>
    exact .cons (step_append (hline.form_ne_openFlow options) hend.1) fun outcome hnext => by simp [hstep] at hnext
  | @step line queue outcome hline hstep _ ih =>
    refine .cons (step_append (hline.form_ne_openFlow options) hend.1) fun other hnext => ?_
    obtain rfl : outcome = other := Except.ok.inj (hstep.symm.trans hnext)
    simp only [Shorthand.step, if_neg (hline.form_ne_openFlow options)] at hstep
    exact ih (hend.settle hstep)

end Blocks

theorem normalize_comment (options : Options) {comment : String} (hstart : comment.toList.head? = some '#')
    (hbreak : '\n' ∉ comment.toList) (hquote : '\'' ∉ comment.toList) : normalize options comment = .ok comment := by
  obtain ⟨cs, hcs⟩ := List.head?_eq_some_iff.1 hstart
  have hvalue : (Layout.of comment.toList).value = [] := by rw [hcs, Layout.value_of_comment]
  have hstep : step options ⟨1, comment.toList⟩ [] = .ok ⟨[comment.toList], []⟩ := step_of_value_nil options hvalue []
  have htext := normalizeText_of_step hbreak hquote hstep
  simp only [normalize, htext, String.ofList_toList]

/-- The lines before a comment and behind it are normalized as if they were documents. Where all blocks before it end there,
they are so without the comment, too: it stays, and changes nothing else. -/
theorem normalize_insert_comment {options : Options} {a b comment : String} (hstart : comment.toList.head? = some '#')
    (hbreak : '\n' ∉ comment.toList) (hquote : '\'' ∉ comment.toList)
    (hflat : FlatRun options (numberLines 1 (linesOf a))) :
    (normalize options (a ++ "\n" ++ comment ++ "\n" ++ b) =
        match normalize options a, normalize options b with
        | .error fault, _ => .error fault
        | .ok x, .ok y => .ok (x ++ "\n" ++ comment ++ "\n" ++ y)
        | .ok _, .error fault => .error ⟨(linesOf a).length + 1 + fault.line, fault.cause⟩) ∧
      (BlocksEnd options (numberLines ((linesOf a).length + 1) (linesOf b)) (numberLines 1 (linesOf a)) →
        normalize options (a ++ "\n" ++ b) =
          match normalize options a, normalize options b with
          | .error fault, _ => .error fault
          | .ok x, .ok y => .ok (x ++ "\n" ++ y)
          | .ok _, .error fault => .error ⟨(linesOf a).length + fault.line, fault.cause⟩) := by
  -- A comment starts a section of its own, so the part before it ends there; behind it a document of its own starts.
  refine ⟨?_, fun hend => normalize_parts (.of_blocksEnd hflat hend)⟩
  obtain ⟨cs, hcs⟩ := List.head?_eq_some_iff.1 hstart
  have hline := linesOf_of_not_mem hbreak hquote
  have hbehind : normalize options (comment ++ "\n" ++ b) =
      ((normalize options b).map (comment ++ "\n" ++ ·)).mapError (.renumber (1 + ·)) := by
    have hparts : ApartRun options (numberLines ((linesOf comment).length + 1) (linesOf b)) (numberLines 1 (linesOf comment)) := by
      refine .of_value_nil fun line hmem => ?_
      rw [hline, numberLines, numberLines, List.mem_singleton] at hmem
      rw [hmem, hcs, Layout.value_of_comment]
    rw [normalize_parts hparts, normalize_comment options hstart hbreak hquote, hline]
    cases normalize options b <;> rfl
  have hsection : HeadStartsSection (numberLines ((linesOf a).length + 1) (linesOf (comment ++ "\n" ++ b))) := by
    have hlines : linesOf (comment ++ "\n" ++ b) = comment.toList :: linesOf b := by
      rw [linesOf, splitLines_doubleQuotes_append, ← linesOf, ← linesOf, hline]
      rfl
    intro line hmem
    rw [hlines, numberLines, List.head?_cons, Option.mem_some] at hmem
    rw [← hmem, hcs]
    exact startsSection_comment cs
  have hassoc : a ++ "\n" ++ comment ++ "\n" ++ b = a ++ "\n" ++ (comment ++ "\n" ++ b) := by
    simp only [String.append_assoc]
  rw [hassoc, normalize_parts (.of_flat hflat hsection), hbehind]
  cases normalize options a with
  | error fault => rfl
  | ok x =>
    cases normalize options b with
    | error fault => simp only [Except.map, Except.mapError, LineFault.renumber, Nat.add_assoc]
    | ok y => simp only [Except.map, Except.mapError, String.append_assoc]

/-- A comment between a key and its list, behind a block that has ended. -/
theorem normalize_insert_comment_list :
    normalize .standard ("A: !Join\n  - x\nB:" ++ "\n" ++ "# c" ++ "\n" ++ "  - !Ref y") =
        .ok "A:\n  Fn::Join:\n    - x\nB:\n# c\n  - \x7b \"Ref\" : \"y\" \x7d" ∧
      normalize .standard ("A: !Join\n  - x\nB:" ++ "\n" ++ "  - !Ref y") =
        .ok "A:\n  Fn::Join:\n    - x\nB:\n  - \x7b \"Ref\" : \"y\" \x7d" := by
  have hfront : normalize .standard "A: !Join\n  - x\nB:" = .ok "A:\n  Fn::Join:\n    - x\nB:" := by decide +kernel
  have hback : normalize .standard "  - !Ref y" = .ok "  - \x7b \"Ref\" : \"y\" \x7d" := by decide +kernel
  have hflat : FlatRun .standard (numberLines 1 (linesOf "A: !Join\n  - x\nB:")) :=
    flatRun_of_spaces .standard (by decide) (by decide)
  obtain ⟨hwith, hwithout⟩ := @normalize_insert_comment .standard "A: !Join\n  - x\nB:" "  - !Ref y" "# c" (by decide)
    (by decide) (by decide) hflat
  refine ⟨?_, ?_⟩
  · rw [hwith, hfront, hback]
    rfl
  · rw [hwithout (by decide +kernel), hfront, hback]
    rfl

/-- A comment in front of a block cuts it off from the function that takes it. -/
theorem normalize_insert_comment_cut :
    (∀ line ∈ splitLines "K: !Join\n  - x\n  - a".toList, IsFlat line) ∧
      normalize .standard "K: !Join\n  - x\n  - a" = .ok "K:\n  Fn::Join:\n    - x\n    - a" ∧
      normalize .standard "K: !Join\n# c\n  - x\n  - a" = .error ⟨1, .noBlock ["Fn::Join"]⟩ ∧
      normalize .standard "K: !Join\n  - x\n# c\n  - a" = .ok "K:\n  Fn::Join:\n    - x\n# c\n  - a" :=
  ⟨by decide, by decide +kernel, by decide +kernel, by decide +kernel⟩

end CloudTemplate.Shorthand
