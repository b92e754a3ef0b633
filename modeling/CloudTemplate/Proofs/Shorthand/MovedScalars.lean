import CloudTemplate.Proofs.Shorthand.StableLines
import CloudTemplate.Proofs.Shorthand.ApartRuns
/-! Block scalars behind calls. The calls become keys on lines of their own, and the scalar is moved below them. It is moved
as a whole where spaces alone indent its lines, and blank lines in it hold no more of them than the others share. -/
namespace CloudTemplate.Shorthand

def movedLines (column : Nat) (lines : List (List Char)) : List (List Char) :=
  (reindent column (numberLines 1 lines)).map SourceLine.text

def leadingSpaces (line : List Char) : Nat := (line.takeWhile Text.isSpace).length

def commonSpaces (lines : List (List Char)) : Nat :=
  ((lines.filter fun line => !Text.isBlankText line).map leadingSpaces).min?.getD 0

def shiftLine (common column : Nat) (line : List Char) : List Char :=
  if line.length ≤ common then [] else Text.spaces column ++ line.drop common

def movesWhole (common : Nat) (line : List Char) : Bool :=
  if Text.isBlankText line then line.length ≤ common else (line.takeWhile Text.isBlank).all Text.isSpace

def moveLine (least column : Nat) (line : List Char) : List Char :=
  if Text.isBlankText line then []
  else Text.spaces (Text.indentation line + column - least) ++ Text.trimStart line

def leastIndent (lines : List (List Char)) : Option Nat :=
  ((lines.filter fun line => !Text.isBlankText line).map Text.indentation).min?

theorem map_text_reindent_eq (column : Nat) (lines : List SourceLine) :
    (reindent column lines).map SourceLine.text =
      (lines.map SourceLine.text).map (moveLine ((leastIndent (lines.map SourceLine.text)).getD column) column) := by
  have hleast : leastIndentation lines = leastIndent (lines.map SourceLine.text) := by
    simp only [leastIndentation, leastIndent, List.filter_map, List.map_map]
    rfl
  simp only [reindent, hleast, List.map_map]
  refine List.map_congr_left fun line _ => ?_
  simp only [Function.comp_apply, moveLine]
  split <;> rfl

/-- Moving lines goes by their texts. -/
theorem map_text_reindent_movedLines (column : Nat) (lines : List SourceLine) :
    (reindent column lines).map SourceLine.text = movedLines column (lines.map SourceLine.text) := by
  rw [movedLines, map_text_reindent_eq, map_text_reindent_eq, map_text_numberLines]

theorem movedLines_eq (column : Nat) (lines : List (List Char)) :
    movedLines column lines = lines.map (moveLine ((leastIndent lines).getD column) column) := by
  rw [movedLines, map_text_reindent_eq, map_text_numberLines]

section Lines

variable {common column least : Nat} {line : List Char}

theorem exists_filled (h : Text.isBlankText line = false) :
    ∃ blanks c cs, line = blanks ++ c :: cs ∧ (∀ d ∈ blanks, Text.isBlank d = true) ∧ Text.isBlank c = false := by
  have hsplit := List.takeWhile_append_dropWhile (p := Text.isBlank) (l := line)
  have hhead := List.head?_dropWhile_not Text.isBlank line
  cases hrest : line.dropWhile Text.isBlank with
  | nil =>
    have hall := List.dropWhile_eq_nil_iff.1 hrest
    rw [Text.isBlankText, List.all_eq_true.2 hall] at h
    contradiction
  | cons c cs =>
    rw [hrest] at hsplit hhead
    exact ⟨_, c, cs, hsplit.symm, fun d hd => List.mem_takeWhile_imp hd, hhead⟩

theorem takeWhile_filled {blanks : List Char} (hblanks : ∀ d ∈ blanks, Text.isBlank d = true) {c : Char}
    (hc : Text.isBlank c = false) (cs : List Char) :
    (blanks ++ c :: cs).takeWhile Text.isBlank = blanks ∧ Text.trimStart (blanks ++ c :: cs) = c :: cs := by
  have hneg : ¬Text.isBlank c = true := by simp [hc]
  constructor
  · rw [List.takeWhile_append_of_pos hblanks, List.takeWhile_cons_of_neg hneg, List.append_nil]
  · rw [Text.trimStart, List.dropWhile_append_of_pos hblanks, List.dropWhile_cons_of_neg hneg]

theorem leadingSpaces_le {blanks : List Char} {c : Char} (hc : Text.isBlank c = false) (cs : List Char) :
    leadingSpaces (blanks ++ c :: cs) ≤ blanks.length := by
  have hspace : ¬Text.isSpace c = true := fun hspace => by
    rw [Text.isBlank_of_isSpace hspace] at hc
    contradiction
  rw [leadingSpaces, List.takeWhile_append]
  split
  · rw [List.takeWhile_cons_of_neg hspace, List.append_nil]
  · exact (List.takeWhile_sublist _).length_le

theorem isSpace_take (h : common ≤ leadingSpaces line) : ∀ c ∈ line.take common, Text.isSpace c = true := by
  have hsplit := List.takeWhile_append_dropWhile (p := Text.isSpace) (l := line)
  intro c hc
  rw [← hsplit, List.take_append_of_le_length h] at hc
  exact List.mem_takeWhile_imp (List.mem_of_mem_take hc)

theorem leadingSpaces_lt (h : Text.isBlankText line = false) : leadingSpaces line < line.length := by
  obtain ⟨blanks, c, cs, rfl, -, hc⟩ := exists_filled h
  have hle : leadingSpaces (blanks ++ c :: cs) ≤ blanks.length := leadingSpaces_le hc cs
  rw [List.length_append, List.length_cons]
  omega

theorem filled_of_isSpace (h : (line.takeWhile Text.isBlank).all Text.isSpace = true)
    (hfilled : Text.isBlankText line = false) : Filled line ∧ leadingSpaces line = Text.indentation line := by
  obtain ⟨blanks, c, cs, rfl, hblanks, hc⟩ := exists_filled hfilled
  rw [(takeWhile_filled hblanks hc cs).1, List.all_eq_true] at h
  obtain ⟨n, rfl⟩ : ∃ n, blanks = Text.spaces n := ⟨_, List.eq_replicate_of_mem fun d hd => beq_iff_eq.1 (h d hd)⟩
  refine ⟨(Filled.cons hc cs).spaces n, Nat.le_antisymm ?_ ?_⟩
  · rw [indentation_spaces, indentation_cons hc]
    exact (leadingSpaces_le hc cs).trans_eq List.length_replicate
  · rw [indentation_spaces, indentation_cons hc, leadingSpaces, List.takeWhile_append_of_pos h, List.length_append]
    exact Nat.le_add_right_of_le List.length_replicate.ge

/-- A line that keeps what stands behind the common spaces is indented by spaces alone. -/
theorem movesWhole_of_moveLine (hcommon : Text.isBlankText line = false → common ≤ leadingSpaces line)
    (h : moveLine least column line = shiftLine common column line) : movesWhole common line = true := by
  rw [movesWhole]
  cases hblank : Text.isBlankText line with
  | true =>
    rw [moveLine, if_pos hblank, shiftLine] at h
    split at h
    · simpa
    · rename_i hlength
      have hdrop := (List.append_eq_nil_iff.1 h.symm).2
      exact absurd (List.drop_eq_nil_iff.1 hdrop) hlength
  | false =>
    have hcommon := hcommon hblank
    have hfront := isSpace_take hcommon
    obtain ⟨blanks, c, cs, rfl, hblanks, hc⟩ := exists_filled hblank
    obtain ⟨htake, htrim⟩ := takeWhile_filled hblanks hc cs
    have hle := hcommon.trans (leadingSpaces_le hc cs)
    have hlength : ¬(blanks ++ c :: cs).length ≤ common := by simp; omega
    rw [List.take_append_of_le_length hle] at hfront
    rw [moveLine, if_neg (by simp [hblank]), htrim, shiftLine, if_neg hlength, List.drop_append_of_le_length hle,
      ← List.append_assoc] at h
    have hspaces := List.append_cancel_right h
    have hback : ∀ d ∈ blanks.drop common, Text.isSpace d = true := by
      intro d hd
      have hmem : d ∈ Text.spaces column ++ blanks.drop common := List.mem_append_right _ hd
      rw [← hspaces] at hmem
      rw [List.eq_of_mem_replicate hmem]
      rfl
    rw [if_neg (by simp), htake, List.all_eq_true, ← List.take_append_drop common blanks]
    exact List.forall_mem_append.2 ⟨hfront, hback⟩

/-- A line that spaces alone indent is moved with what stands behind the common ones. -/
theorem moveLine_eq_shiftLine (h : movesWhole common line = true)
    (hcommon : Text.isBlankText line = false → common ≤ leadingSpaces line ∧ least = common) :
    moveLine least column line = shiftLine common column line := by
  rw [movesWhole] at h
  cases hblank : Text.isBlankText line with
  | true =>
    rw [if_pos hblank, decide_eq_true_eq] at h
    rw [moveLine, if_pos hblank, shiftLine, if_pos h]
  | false =>
    rw [if_neg (by simp [hblank])] at h
    obtain ⟨hcommon, rfl⟩ := hcommon hblank
    obtain ⟨hfilled, hspaces⟩ := filled_of_isSpace h hblank
    have hlength : ¬line.length ≤ least := Nat.not_le.2 (hcommon.trans_lt (leadingSpaces_lt hblank))
    rw [hspaces] at hcommon
    have hdrop : line.drop least = Text.spaces (Text.indentation line - least) ++ Text.trimStart line := by
      conv_lhs => rw [← hfilled.eq]
      rw [List.drop_append_of_le_length (by simpa [Text.spaces] using hcommon), Text.spaces, List.drop_replicate,
        ← Text.spaces]
    have hindent : Text.indentation line + column - least = column + (Text.indentation line - least) := by omega
    rw [moveLine, if_neg (by simp [hblank]), shiftLine, if_neg hlength, hdrop, hindent, ← spaces_append, List.append_assoc]

/-- Lines are moved as a whole exactly where spaces alone indent them and blank ones hold no more than the common ones. -/
theorem movedLines_eq_shiftLine_iff (column : Nat) (lines : List (List Char)) :
    movedLines column lines = lines.map (shiftLine (commonSpaces lines) column) ↔
      ∀ line ∈ lines, movesWhole (commonSpaces lines) line = true := by
  have hcommon : ∀ line ∈ lines, Text.isBlankText line = false → commonSpaces lines ≤ leadingSpaces line := by
    intro line hline hblank
    have hmem : leadingSpaces line ∈ (lines.filter fun line => !Text.isBlankText line).map leadingSpaces :=
      List.mem_map_of_mem (List.mem_filter.2 ⟨hline, by simp [hblank]⟩)
    rw [commonSpaces]
    cases hmin : ((lines.filter fun line => !Text.isBlankText line).map leadingSpaces).min? with
    | none => exact Nat.zero_le _
    | some least => exact (List.min?_eq_some_iff.1 hmin).2 _ hmem
  rw [movedLines_eq, List.map_inj_left]
  constructor
  · exact fun h line hline => movesWhole_of_moveLine (hcommon line hline) (h line hline)
  · refine fun h line hline => moveLine_eq_shiftLine (h line hline) fun hblank => ⟨hcommon line hline hblank, ?_⟩
    have hfilled : (lines.filter fun line => !Text.isBlankText line).map Text.indentation =
        (lines.filter fun line => !Text.isBlankText line).map leadingSpaces := by
      refine List.map_congr_left fun other hother => ?_
      obtain ⟨hmem, hother⟩ := List.mem_filter.1 hother
      have hother : Text.isBlankText other = false := by simpa using hother
      have hwhole := h other hmem
      rw [movesWhole, if_neg (by simp [hother])] at hwhole
      exact (filled_of_isSpace hwhole hother).2.symm
    have hne : (lines.filter fun line => !Text.isBlankText line).map leadingSpaces ≠ [] :=
      List.ne_nil_of_mem (List.mem_map_of_mem (List.mem_filter.2 ⟨hline, by simp [hblank]⟩))
    obtain ⟨least, hleast⟩ := Option.ne_none_iff_exists'.1 (List.min?_eq_none_iff.not.2 hne)
    rw [leastIndent, commonSpaces, hfilled, hleast]
    rfl

end Lines

def announcing (calls : List Intrinsic) (indicator : List Char) : List Char := chainTags calls ++ ' ' :: indicator

theorem announcing_cons (f : Intrinsic) (calls : List Intrinsic) (indicator : List Char) :
    ∃ cs, announcing (f :: calls) indicator = '!' :: cs := by
  obtain ⟨cs, hcs⟩ := chainTags_cons f calls
  exact ⟨cs ++ ' ' :: indicator, by rw [announcing, hcs]; rfl⟩

section Indicator

variable {indicator : List Char} (hindicator : isBlockIndicator indicator = true)

include hindicator

theorem flowAt_announcing (f : Intrinsic) (calls : List Intrinsic) :
    ∃ flow, flowAt false (announcing (f :: calls) indicator) = .ok (flow, []) ∧
      flow.fragment = .waiting ((f :: calls).map Intrinsic.longName) (some indicator) := by
  induction calls generalizing f with
  | nil =>
    obtain ⟨c, cs, rfl⟩ := List.exists_cons_of_ne_nil (show indicator ≠ [] by rintro rfl; contradiction)
    have hgap : Text.isGap c = false := by
      have hblank := isBlank_of_mem_indicator hindicator List.mem_cons_self
      exact Bool.eq_false_iff.2 fun hgap => absurd (Text.isBlank_of_isGap hgap) (by simp [hblank])
    refine ⟨.opened f (some (c :: cs)), ?_, rfl⟩
    have hname : (f.tag.toList ++ ' ' :: c :: cs).takeWhile Char.isAlphanum = f.tag.toList := by
      rw [List.takeWhile_append_of_pos fun d hd => isAlphanum_of_mem_tag hd, List.takeWhile_cons_of_neg (by decide),
        List.append_nil]
    have hafter : afterName (f.tag.toList ++ ' ' :: c :: cs) = c :: cs := by
      rw [afterName, List.dropWhile_append_of_pos fun d hd => isAlphanum_of_mem_tag hd,
        List.dropWhile_cons_of_neg (by decide), afterGap, List.dropWhile_cons_of_pos rfl, ← afterGap, afterGap_cons hgap]
    have hhead : (f.tag.toList ++ ' ' :: c :: cs).head? ≠ some '!' := by cases f <;> simp [Intrinsic.tag]
    have htext : announcing [f] (c :: cs) = '!' :: (f.tag.toList ++ ' ' :: c :: cs) := rfl
    rw [htext, flowAt_mark, tagAt_eq, if_neg hhead, hname, hafter, String.ofList_toList, ofTag?_tag]
    simp [lacksArgument, hindicator]
  | cons g calls ih =>
    obtain ⟨flow, hread, hfragment⟩ := ih g
    obtain ⟨cs, hcs⟩ := announcing_cons g calls indicator
    have hopens : isBlockIndicator (announcing (g :: calls) indicator) = false :=
      isBlockIndicator_of_opensFlow (by rw [hcs]; rfl)
    have htag : tagAt false (f.tag.toList ++ (oneSpace.text ++ announcing (g :: calls) indicator)) =
        mapRead (.call f) (flowAt false (announcing (g :: calls) indicator)) :=
      tagAt_tag f false (List.cons_ne_nil _ _) (by rw [hcs, afterGap_cons rfl]) (by rw [hcs]; rfl) fun _ => hopens
    have htext : announcing (f :: g :: calls) indicator =
        '!' :: (f.tag.toList ++ (oneSpace.text ++ announcing (g :: calls) indicator)) := by
      simp [announcing, chainTags, oneSpace]
    refine ⟨.call f flow, ?_, ?_⟩
    · rw [htext, flowAt_mark, htag, hread]
      rfl
    · rw [Flow.fragment, hfragment]
      rfl

/-- Calls with an indicator behind them wait for a scalar. -/
theorem expandValue_announcing {calls : List Intrinsic} (hcalls : calls ≠ []) :
    expandValue (announcing calls indicator) = .ok (.block (calls.map Intrinsic.longName) (some indicator)) := by
  obtain ⟨f, calls, rfl⟩ := List.exists_cons_of_ne_nil hcalls
  obtain ⟨flow, hread, hfragment⟩ := flowAt_announcing hindicator f calls
  obtain ⟨cs, hcs⟩ := announcing_cons f calls indicator
  have hmark : hasMark (announcing (f :: calls) indicator) = true := by simp [hcs, hasMark]
  have hopens : opensFlow (announcing (f :: calls) indicator) = true := by rw [hcs]; rfl
  rw [expandValue_eq, hmark, hopens, hread]
  simp only [Bool.and_self, if_true, hfragment]

theorem Form.of_announcing (options : Options) {layout : Layout} {calls : List Intrinsic} (hcalls : calls ≠ [])
    (hvalue : layout.value = announcing calls indicator) : Form.of options layout = .other := by
  obtain ⟨f, calls, rfl⟩ := List.exists_cons_of_ne_nil hcalls
  obtain ⟨cs, hcs⟩ := announcing_cons f calls indicator
  have hopens : opensFlow layout.value = true := by rw [hvalue, hcs]; rfl
  have hweight : ∀ c ∈ layout.value, bracketWeight c = 0 := by
    intro c hc
    rw [hvalue, announcing, List.mem_append, List.mem_cons] at hc
    obtain hc | rfl | hc := hc
    · exact bracketWeight_of_isTame (isTame_of_mem_chainTags hc)
    · rfl
    · have hne (d : Char) (hd : isBlockIndicator [d] = false) (hd' : isBlockIndicator ['|', d] = false) : c ≠ d :=
        ne_of_mem_indicator hindicator hc hd hd'
      simp [bracketWeight, hne '[' rfl rfl, hne ']' rfl rfl, hne '\x7b' rfl rfl, hne '\x7d' rfl rfl]
  refine Form.of_eq_other (isBlockIndicator_of_opensFlow hopens) (.inr (splitLongForm_of_opensFlow hopens)) fun _ => ?_
  exact Int.le_of_eq (balanceFrom_eq_zero hweight _)

end Indicator

def announcedLines (layout : Layout) (key : List Char) (calls : List Intrinsic) (indicator : List Char) :
    List (List Char) :=
  (layout.opening ++ (key ++ ':' :: layout.trailing)) ::
    appendLast (' ' :: indicator) (nameLines (layout.opening.length + 2) (calls.map Intrinsic.longName))

section Steps

variable {header : SourceLine} {body rest : List SourceLine} {key gap indicator : List Char} {calls : List Intrinsic}
  (hkey : (Layout.of header.text).key = some (key, gap))
  (hvalue : (Layout.of header.text).value = announcing calls indicator) (hcalls : calls ≠ [])
  (hindicator : isBlockIndicator indicator = true)

include hkey hvalue hcalls hindicator

theorem step_announcing (queue : List SourceLine) :
    step .standard header queue =
      .ok ⟨announcedLines (Layout.of header.text) key calls indicator ++
          (reindent ((Layout.of header.text).opening.length + 2 + 2 * calls.length)
            (bodyOf (Layout.of header.text).opening.length true queue)).map SourceLine.text,
        queue.drop (bodyOf (Layout.of header.text).opening.length true queue).length⟩ := by
  have hne : (Layout.of header.text).value ≠ [] := by simp [hvalue, announcing]
  obtain ⟨hgap, -⟩ := (Layout.parts_of hne).2 key gap hkey
  have hnames : calls.map Intrinsic.longName ≠ [] := by simpa using hcalls
  have hform := Form.of_announcing hindicator .standard hcalls hvalue
  have hmultiline : Options.standard.isEnabled .multiline = true := rfl
  have hcolumn : (Layout.of header.text).keyColumn = some (Layout.of header.text).opening.length := by
    simp [Layout.keyColumn, hkey]
  have howner : (Layout.of header.text).ownerColumn = (Layout.of header.text).opening.length := by
    simp [Layout.ownerColumn, hcolumn]
  simp only [step, settle, hform, hvalue, expandValue_announcing hindicator hcalls, reduceCtorEq, if_false, numbered, bind,
    Except.bind, place, hmultiline, Bool.not_true, Bool.false_eq_true, Option.isSome_some, if_true, hcolumn, howner,
    blockColumn, List.length_map, blockHeader_key_announced hkey hgap hnames, announcedLines]

/-- What follows a scalar that is moved, and does not belong to its key, is normalized as it is by itself. -/
theorem apartRun_announcing (hbody : ∀ line ∈ body, belongs (Layout.of header.text).opening.length true line.text = true)
    (hlast : ∀ line ∈ body.getLast?, Text.isBlankText line.text = false)
    (hrest : ∀ line ∈ firstFilled (rest.map SourceLine.text),
      belongs (Layout.of header.text).opening.length true line = false) :
    ApartRun .standard rest (header :: body) ∧
      normalizeLines .standard (header :: body) =
        .ok (announcedLines (Layout.of header.text) key calls indicator ++
          movedLines ((Layout.of header.text).opening.length + 2 + 2 * calls.length) (body.map SourceLine.text)) := by
  have hstep := step_announcing hkey hvalue hcalls hindicator
  have hown : bodyOf (Layout.of header.text).opening.length true body = body := bodyOf_of_belongs hbody hlast
  have hqueue : bodyOf (Layout.of header.text).opening.length true (body ++ rest) = body :=
    (bodyOf_append_outside body hrest).trans hown
  have hself := hstep body
  rw [hown, List.drop_length] at hself
  have hbehind := hstep (body ++ rest)
  rw [hqueue, List.drop_left] at hbehind
  rw [← map_text_reindent_movedLines]
  exact ApartRun.of_step hself hbehind

end Steps

/-- A block scalar behind calls is moved below the keys that they become, and what follows it is normalized as it is by
itself. Its lines keep what stands behind their common spaces exactly where spaces alone indent them, and blank ones hold no
more than the common ones. -/
theorem normalize_announcing {block : String} {header : List Char} {body : List (List Char)}
    (hlines : linesOf block = header :: body) {key gap indicator : List Char} {calls : List Intrinsic}
    (hkey : (Layout.of header).key = some (key, gap))
    (hvalue : (Layout.of header).value = announcing calls indicator) (hcalls : calls ≠ [])
    (hindicator : isBlockIndicator indicator = true)
    (hbody : ∀ line ∈ body, belongs (Layout.of header).opening.length true line = true)
    (hlast : ∀ line ∈ body.getLast?, Text.isBlankText line = false) :
    let column := (Layout.of header).opening.length + 2 + 2 * calls.length
    let text (lines : List (List Char)) : String :=
      String.ofList (joinLines (announcedLines (Layout.of header) key calls indicator ++ lines))
    normalize .standard block = .ok (text (movedLines column body)) ∧
      (∀ rest : String, (∀ line ∈ firstFilled (linesOf rest), belongs (Layout.of header).opening.length true line = false) →
        normalize .standard (block ++ "\n" ++ rest) =
          match normalize .standard rest with
          | .ok out => .ok (text (movedLines column body) ++ "\n" ++ out)
          | .error fault => .error ⟨(header :: body).length + fault.line, fault.cause⟩) ∧
      (movedLines column body = body.map (shiftLine (commonSpaces body) column) ↔
        ∀ line ∈ body, movesWhole (commonSpaces body) line = true) := by
  intro column text
  have htexts : (numberLines 2 body).map SourceLine.text = body := map_text_numberLines 2 body
  have hbelongs : ∀ line ∈ numberLines 2 body, belongs (Layout.of header).opening.length true line.text = true := by
    intro line hline
    exact hbody line.text (htexts ▸ List.mem_map_of_mem hline)
  have hend : ∀ line ∈ (numberLines 2 body).getLast?, Text.isBlankText line.text = false := by
    intro line hline
    refine hlast line.text ?_
    rw [← htexts, List.getLast?_map]
    exact Option.mem_map_of_mem _ hline
  -- The run over the scalar does not depend on the lines behind it, as long as they do not belong to it.
  have happart {rest : List SourceLine} (hrest : ∀ line ∈ firstFilled (rest.map SourceLine.text),
      belongs (Layout.of header).opening.length true line = false) :
      ApartRun .standard rest (⟨1, header⟩ :: numberLines 2 body) ∧
        normalizeLines .standard (⟨1, header⟩ :: numberLines 2 body) =
          .ok (announcedLines (Layout.of header) key calls indicator ++ movedLines column body) := by
    have hrun := @apartRun_announcing ⟨1, header⟩ _ rest _ _ _ _ hkey hvalue hcalls hindicator hbelongs hend hrest
    rwa [htexts] at hrun
  have hnumbers : numberLines 1 (linesOf block) = ⟨1, header⟩ :: numberLines 2 body := by rw [hlines, numberLines]
  have hself : normalize .standard block = .ok (text (movedLines column body)) := by
    have hrun := (@happart [] (by simp [firstFilled])).2
    rw [← hnumbers] at hrun
    exact normalize_of_run hrun
  refine ⟨hself, fun rest hrest => ?_, movedLines_eq_shiftLine_iff column body⟩
  have hparts : ApartRun .standard (numberLines ((linesOf block).length + 1) (linesOf rest)) (numberLines 1 (linesOf block)) := by
    rw [hnumbers]
    exact (happart (by rwa [map_text_numberLines])).1
  rw [normalize_parts hparts, hself, hlines]
  cases normalize .standard rest <;> rfl

/-- A scalar with a blank line and deeper ones in it, behind two calls in an item, is moved as a whole. -/
theorem normalize_announcing_item :
    (∀ line ∈ ["".toList, "    a: !Ref b".toList, "    ".toList, "      - [x  ".toList],
        movesWhole 4 line = true) ∧
      normalize .standard "- K: !Base64 !Sub >-\n\n    a: !Ref b\n    \n      - [x  " =
        .ok "- K:\n    Fn::Base64:\n      Fn::Sub: >-\n\n        a: !Ref b\n\n          - [x  " ∧
      normalize .standard ("- K: !Base64 !Sub >-\n\n    a: !Ref b\n    \n      - [x  " ++ "\n" ++ "  N: !Nope z") =
        .error ⟨6, .flow (.unknownTag "Nope")⟩ := by
  have hfault : normalize .standard "  N: !Nope z" = .error ⟨1, .flow (.unknownTag "Nope")⟩ := by decide +kernel
  obtain ⟨hself, hrest, hwhole⟩ := @normalize_announcing "- K: !Base64 !Sub >-\n\n    a: !Ref b\n    \n      - [x  "
    "- K: !Base64 !Sub >-".toList ["".toList, "    a: !Ref b".toList, "    ".toList, "      - [x  ".toList] (by decide)
    ['K'] [' '] ['>', '-'] [.base64, .sub] (by decide) (by decide) (by decide) (by decide) (by decide) (by decide)
  have hmoved := hwhole.1 (by decide)
  refine ⟨hmoved, ?_, ?_⟩
  · rw [hself, hwhole.2 hmoved]
    decide +kernel
  · rw [hrest _ (by decide), hfault]
    rfl

/-- A tab behind the spaces that two lines share becomes a space. -/
theorem normalize_announcing_tab :
    ["  a".toList, "  \tb".toList].map (shiftLine (commonSpaces ["  a".toList, "  \tb".toList]) 4) =
        ["    a".toList, "    \tb".toList] ∧
      normalize .standard "K: !Sub |\n  a\n  \tb\nN: 1" = .ok "K:\n  Fn::Sub: |\n    a\n     b\nN: 1" ∧
      normalize .standard "K: !Sub |\n  a\n  \tb\nN: 1" ≠ .ok "K:\n  Fn::Sub: |\n    a\n    \tb\nN: 1" :=
  ⟨by decide, by decide +kernel, by decide +kernel⟩

end CloudTemplate.Shorthand
