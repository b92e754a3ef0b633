import CloudTemplate.Proofs.Shorthand.BlockRewrite
import CloudTemplate.Proofs.Shorthand.Stages
/-! Which calls normalization leaves in a document: those at places that reading does not find its way to, such as the
value of a pair among the items of a sequence, and those in collections that go on behind a line that is never joined. -/
namespace CloudTemplate.Shorthand

/-- Whether a value that starts on a line of a text, outside the bodies of block scalars, has a call at a place. -/
def HasCall (way : Way) (text line : List Char) : Prop :=
  ∃ before lead first after, line = lead ++ first ∧ splitLines text = before ++ line :: after ∧
    ¬IsCovered before line ∧ TextCall way lead first after

/-- Whether a line is put out without a mark in it, though the value there may go on: its brackets are closed, no line closes
them, or they are closed by lines without a mark, or by lines behind which the mark is in a comment. -/
inductive Unjoined (line : SourceLine) (queue : List SourceLine) (text : List Char) : Prop
  | closed (hclosed : IsFlat line.text) (hmark : '!' ∉ (Layout.of line.text).value) (htext : text = line.text)
  | never (hopen : NeverCloses line queue) (hmark : '!' ∉ (Layout.of line.text).value) (htext : text = line.text)
  | apart {taken : List SourceLine} (htaken : taken <+: queue)
      (hclosed : isOpen (joinPieces (content line.text) taken) = false)
      (hmark : '!' ∉ joinPieces (content line.text) taken) (htext : text ∈ (line :: taken).map SourceLine.text)
  | joined {taken : List SourceLine} (htaken : taken <+: queue) (htext : text = joinPieces (content line.text) taken)
      (hclosed : IsFlat text) (hmark : '!' ∉ (Layout.of text).value)

theorem KeepsUnmarked.unjoined {line : SourceLine} {queue : List SourceLine} {text : List Char}
    (h : KeepsUnmarked line queue text) (hopens : opensFlow (Layout.of text).value = true) : Unjoined line queue text := by
  cases h with
  | alone hmark htext hjoin =>
    subst htext
    cases hopen : isOpen line.text with
    | false => exact .closed (isOpen_eq_false_iff.1 hopen) hmark rfl
    | true =>
      have hform : Form.of .standard (Layout.of line.text) = .openFlow :=
        Form.of_eq_openFlow hopens (by simpa [isOpen] using hopen)
      have hself : isOpen (content line.text) = true := by
        rw [isOpen, content, Layout.of_lead_value hopens]
        exact hopen
      exact .never ⟨hopens, (joinFlow_eq_none_iff hself queue).1 (hjoin hform)⟩ hmark rfl
  | apart hjoin hmark htext =>
    have hjoined := joinFlow_eq_some hjoin
    rw [hjoined] at hmark
    exact .apart ⟨_, (joinFlow_ok hjoin).1.symm⟩ (hjoined ▸ (joinFlow_closes hjoin).2) hmark htext
  | joined hjoin hmark =>
    exact .joined ⟨_, (joinFlow_ok hjoin).1.symm⟩ (joinFlow_eq_some hjoin)
      (isOpen_eq_false_iff.1 (joinFlow_closes hjoin).2) hmark

theorem Remains.exists_unjoined {start : List SourceLine} {text : List Char} (h : Remains text start)
    (hopens : opensFlow (Layout.of text).value = true) :
    ∃ line queue, line :: queue ∈ stages .standard start ∧ Unjoined line queue text := by
  induction h with
  | @here line queue outcome hstep hkeeps =>
    exact ⟨line, queue, by rw [stages_of_step hstep]; exact List.mem_cons_self, hkeeps.unjoined hopens⟩
  | later hstep _ ih =>
    obtain ⟨line, queue, hmem, h⟩ := ih
    exact ⟨line, queue, by rw [stages_of_step hstep]; exact List.mem_cons_of_mem _ hmem, h⟩

/-- What a step of a run puts out is in its document. -/
theorem lines_subset_of_mem_stages {start queue : List SourceLine} {lines : List (List Char)}
    (h : normalizeLines .standard start = .ok lines) {line : SourceLine}
    (hmem : line :: queue ∈ stages .standard start) {outcome : Outcome} (hstep : step .standard line queue = .ok outcome) :
    outcome.lines ⊆ lines := by
  -- Along the run, down to the queue in question.
  induction start using runInduction .standard generalizing lines with
  | nil => simp [stages_nil] at hmem
  | fault other rest fault hfault =>
    rw [normalizeLines_cons, hfault] at h
    contradiction
  | next other rest last hnext ih =>
    rw [normalizeLines_of_step hnext] at h
    obtain ⟨behind, hbehind, rfl⟩ := map_eq_ok_iff.1 h
    rw [stages_of_step hnext, List.mem_cons] at hmem
    obtain hmem | hmem := hmem
    · cases hmem
      rw [hstep] at hnext
      cases hnext
      exact List.subset_append_left _ _
    · exact List.Subset.trans (ih hbehind hmem) (List.subset_append_right _ _)

def pairItem (key : Letters) (f : Intrinsic) (word : Letters) : List Char :=
  key.text ++ ':' :: ' ' :: '!' :: (f.tag.toList ++ ' ' :: word.text)

def pairLine (outer key : Letters) (f : Intrinsic) (word : Letters) : List Char :=
  outer.text ++ ':' :: ' ' :: '[' :: (pairItem key f word ++ [']'])

section Pairs

variable (outer key word : Letters) (f : Intrinsic)

theorem mem_pairItem {c : Char} (h : c ∈ pairItem key f word) :
    c.isAlphanum = true ∨ c = ':' ∨ c = ' ' ∨ c = '!' := by
  simp only [pairItem, List.mem_append, List.mem_cons] at h
  obtain h | h | h | h | h | h | h := h
  · exact .inl (key.isAlphanum c h)
  · exact .inr (.inl h)
  · exact .inr (.inr (.inl h))
  · exact .inr (.inr (.inr h))
  · exact .inl (isAlphanum_of_mem_tag h)
  · exact .inr (.inr (.inl h))
  · exact .inl (word.isAlphanum c h)

theorem ne_of_mem_pairItem {c d : Char} (h : c ∈ pairItem key f word)
    (hd : (d.isAlphanum || d == ':' || d == ' ' || d == '!') = false) : c ≠ d := by
  intro heq
  rw [heq] at h
  obtain h | rfl | rfl | rfl := mem_pairItem key word f h <;> simp_all

theorem pairItem_eq_cons : ∃ c cs, pairItem key f word = c :: cs ∧ c.isAlphanum = true := by
  obtain ⟨c, cs, hcs, hc⟩ := key.text_eq_cons
  exact ⟨c, cs ++ ':' :: ' ' :: '!' :: (f.tag.toList ++ ' ' :: word.text), by rw [pairItem, hcs]; rfl, hc⟩

theorem trimEnd_pairItem : Text.trimEnd (pairItem key f word) = pairItem key f word := by
  have htext : pairItem key f word = key.text ++ ':' :: ' ' :: '!' :: (f.tag.toList ++ [' ']) ++ word.text := by
    simp [pairItem]
  have hne : word.text ≠ [] := by
    obtain ⟨c, cs, hcs, -⟩ := word.text_eq_cons
    simp [hcs]
  rw [htext, Text.trimEnd_append hne (Text.trimEnd_eq_self word.isBlank)]

def pairScalar : Scalar where
  text := pairItem key f word
  starts := by
    obtain ⟨c, cs, hcs, hc⟩ := pairItem_eq_cons key word f
    have htame := isTame_of_isAlphanum hc
    have hmark : c ≠ '!' := by
      intro heq
      rw [heq] at hc
      contradiction
    have hbracket : c ≠ '[' := ne_of_isTame htame rfl
    have hbrace : c ≠ '\x7b' := ne_of_isTame htame rfl
    have hquote : c ≠ '"' := ne_of_isTame htame rfl
    simp [hcs, startsScalar, isBlank_of_isAlphanum hc, hmark, hbracket, hbrace, hquote]
  ends := trimEnd_pairItem key word f
  unbroken c hc := by
    have hcomma : c ≠ ',' := ne_of_mem_pairItem key word f hc rfl
    have hbracket : c ≠ ']' := ne_of_mem_pairItem key word f hc rfl
    have hbrace : c ≠ '\x7d' := ne_of_mem_pairItem key word f hc rfl
    simp [endsPlain, hcomma, hbracket, hbrace]
  announcesNothing := by
    obtain ⟨c, cs, hcs, hc⟩ := pairItem_eq_cons key word f
    have hpipe : c ≠ '|' := ne_of_isTame (isTame_of_isAlphanum hc) rfl
    have hangle : c ≠ '>' := ne_of_isTame (isTame_of_isAlphanum hc) rfl
    simp [hcs, isBlockIndicator, hpipe, hangle]

theorem expandValue_pairItem :
    expandValue ('[' :: (pairItem key f word ++ [']'])) = .ok (.inline ('[' :: (pairItem key f word ++ [']']))) := by
  let value : Node := .sequence (.last noSpace (.plain (pairScalar key word f)) noSpace)
  have hsource : value.source = '[' :: (pairItem key f word ++ [']']) := by
    simp [value, Node.source, NodeItems.source, noSpace, pairScalar]
  obtain ⟨flow, hread, hfragment⟩ := value.flowAt_source .line
  rw [List.append_nil, hsource] at hread
  have hstructured : value.fragment = .structured ('[' :: (pairItem key f word ++ [']'])) := by
    rw [← hsource]
    rfl
  have hmark : '!' ∈ '[' :: (pairItem key f word ++ [']']) := by simp [pairItem]
  simpa using expandValue_of_flowAt hmark rfl hread (hfragment.trans hstructured)

theorem layout_pairLine :
    Layout.of (pairLine outer key f word) =
      ⟨[], some (outer.text, [' ']), '[' :: (pairItem key f word ++ [']']), []⟩ := by
  have hcomment : '#' ∉ '[' :: (pairItem key f word ++ [']']) := by
    simp only [List.mem_cons, List.mem_append, not_or]
    exact ⟨by decide, fun h => ne_of_mem_pairItem key word f h rfl rfl, by decide, by simp⟩
  have hend : Text.trimEnd ('[' :: (pairItem key f word ++ [']'])) = '[' :: (pairItem key f word ++ [']']) := by
    rw [← List.cons_append, Text.trimEnd_concat rfl]
  exact Layout.of_key .nil [' '] _ (fun _ h => splitKey_letters outer h) (fun _ => takeOpening_letters outer _)
    (List.forall_mem_singleton.2 rfl) rfl (by simp) hcomment hend

theorem form_pairLine :
    Form.of .standard (Layout.of (pairLine outer key f word)) = .other := by
  rw [layout_pairLine]
  have hlong : splitLongForm ('[' :: (pairItem key f word ++ [']'])) = none := splitLongForm_of_opensFlow rfl
  have hbalance : bracketBalance ('[' :: (pairItem key f word ++ [']'])) = 0 := by
    have hitem : balanceFrom .outside (pairItem key f word ++ [']']) = balanceFrom .outside [']'] := by
      have hweight : ∀ c ∈ pairItem key f word, bracketWeight c = 0 := by
        intro c hc
        have hopen : c ≠ '[' := ne_of_mem_pairItem key word f hc rfl
        have hclose : c ≠ ']' := ne_of_mem_pairItem key word f hc rfl
        have hbrace : c ≠ '\x7b' := ne_of_mem_pairItem key word f hc rfl
        have hend : c ≠ '\x7d' := ne_of_mem_pairItem key word f hc rfl
        simp [bracketWeight, hopen, hclose, hbrace, hend]
      have hquotes := closesQuotes_of_not_mem fun hmem => ne_of_mem_pairItem key word f hmem rfl rfl
      rw [balanceFrom_append, balanceFrom_eq_zero hweight, closesQuotes_iff.1 hquotes, Int.zero_add]
    have hnext : Quoting.next .outside '[' = .outside := rfl
    rw [bracketBalance, balanceFrom, hnext, hitem]
    decide
  simp [Form.of, hlong, hbalance, isBlockIndicator]

theorem not_mem_pairLine {c : Char} (hc : (c.isAlphanum || c == ':' || c == ' ' || c == '!') = false)
    (hopen : c ≠ '[') (hclose : c ≠ ']') : c ∉ pairLine outer key f word := by
  intro hmem
  simp only [pairLine, List.mem_append, List.mem_cons, List.not_mem_nil, or_false] at hmem
  obtain hmem | hmem | hmem | hmem | hmem | hmem := hmem
  · have halpha := outer.isAlphanum c hmem
    simp [halpha] at hc
  · simp [hmem] at hc
  · simp [hmem] at hc
  · exact hopen hmem
  · exact ne_of_mem_pairItem key word f hmem hc rfl
  · exact hclose hmem

theorem normalizeText_pairLine :
    normalizeText .standard (pairLine outer key f word) = .ok (pairLine outer key f word) := by
  have hbreak : '\n' ∉ pairLine outer key f word := not_mem_pairLine outer key word f rfl (by decide) (by decide)
  have hquote : '\'' ∉ pairLine outer key f word := not_mem_pairLine outer key word f rfl (by decide) (by decide)
  have hexpand : expandValue (Layout.of (pairLine outer key f word)).value =
      .ok (.inline (Layout.of (pairLine outer key f word)).value) := by
    rw [layout_pairLine, expandValue_pairItem]
  exact normalizeText_of_step hbreak hquote (isFixed_of_expandValue (form_pairLine outer key word f) (.inr hexpand) 1 [])

theorem keyText_letters : KeyText key.text [] := key.keyText noSpace

theorem textCall_pairLine :
    TextCall .missed (outer.text ++ ':' :: Text.spaces 1) ('[' :: (pairItem key f word ++ [']'])) [] := by
  have hkey : BlockKey .read outer.text :=
    blockKey_of_isNameChar fun c hc => by simp [isNameChar, outer.isAlphanum c hc]
  have hcall : FlowCall .read ('!' :: (f.tag.toList ++ ' ' :: (word.text ++ [']']))) := .here f _
  have happart : isApart key.text oneSpace.text = true := by simp [isApart, oneSpace]
  have hpair := ItemCall.pair noSpace (.pair (keyText_letters key) oneSpace happart hcall)
  have hitems : ItemCall .missed (pairItem key f word ++ [']']) := by
    simpa [pairItem, noSpace, oneSpace] using hpair
  have hvalue : unwrapped (joinLines ['[' :: (pairItem key f word ++ [']'])]) = '[' :: (pairItem key f word ++ [']']) := by
    have hmem {c : Char} (hc : (c.isAlphanum || c == ':' || c == ' ' || c == '!') = false) (hopen : c ≠ '[')
        (hclose : c ≠ ']') : c ∉ '[' :: (pairItem key f word ++ [']']) := fun hmem =>
      not_mem_pairLine outer key word f hc hopen hclose (by simp [pairLine, hmem])
    rw [joinLines_singleton, unwrapped_eq (hmem rfl (by decide) (by decide)) (hmem rfl (by decide) (by decide))]
  refine .missed (.key .nil hkey 0) ?_ (.inr (.inl rfl))
  rw [hvalue]
  exact .sequence hitems

/-- A call stays in a pair among the items of a sequence. -/
theorem normalize_pairLine :
    normalize .standard (String.ofList (pairLine outer key f word)) = .ok (String.ofList (pairLine outer key f word)) ∧
      HasCall .missed (pairLine outer key f word) (pairLine outer key f word) := by
  have hline : splitLines (pairLine outer key f word) = [pairLine outer key f word] :=
    splitLines_of_not_mem (not_mem_pairLine outer key word f rfl (by decide) (by decide))
  exact ⟨by rw [normalize, String.toList_ofList, normalizeText_pairLine], [], _, _, [], by simp [pairLine, Text.spaces],
    hline, not_isCovered_nil _, textCall_pairLine outer key word f⟩

end Pairs

/-- No line of a normalized document has a call at a place that reading finds its way to. A value there that goes on
over more lines up to such a call starts on a line to which the line of the call was not joined, as its brackets seemed
to be closed before, or never to be. And a line that starts with neither a collection nor a tag, as it may within a
collection, is put out as it is if no line before it takes it. -/
theorem remains_of_normalize {text out : String} (h : normalize .standard text = .ok out) :
    let source := numberLines 1 (linesOf text)
    (∀ before line after, splitLines out.toList = before ++ line :: after → ¬IsCovered before line →
        ¬LineCall line) ∧
      (∀ text, HasCall .read out.toList text → ∃ line queue, line :: queue ∈ stages .standard source ∧
        Unjoined line queue text) ∧
      ∀ line queue, line :: queue ∈ stages .standard source → Form.of .standard (Layout.of line.text) = .other →
        opensFlow (Layout.of line.text).value = false → line.text ∈ splitLines out.toList := by
  intro source
  rw [normalize_eq_map] at h
  obtain ⟨lines, hrun, rfl⟩ := map_eq_ok_iff.1 h
  have htidy := tidy_normalizeLines hrun (areSingle_numberLines 1 _)
  have hsplit : splitLines (String.ofList (joinLines lines)).toList = lines := by
    rw [String.toList_ofList]
    exact splitLines_joinLines (normalizeLines_ne_nil (numberLines_ne_nil _ _) hrun)
      (single_normalizeLines hrun (areSingle_numberLines 1 _))
  rw [hsplit]
  refine ⟨fun before line after hlines hcovered hcall => ?_, ?_, fun line queue hmem hform hopens => ?_⟩
  · exact (htidy.of_not_isCovered hlines hcovered).free hcall.flowCall
  · rintro text ⟨before, lead, first, after, htext, hlines, hcovered, hcall⟩
    rw [hsplit] at hlines
    have hremains := (htidy.of_not_isCovered hlines hcovered).starts ⟨lead, first, after, htext, hcall⟩
    cases hcall with
    | read hlead hopens => exact hremains.exists_unjoined (Layout.opensFlow_value htext hlead hopens.opensFlow).2
  · have hexpand : expandValue (Layout.of line.text).value = .ok .unchanged := by
      rw [expandValue_eq, hopens, Bool.and_false, if_neg Bool.false_ne_true]
    have hstep := step_of_other hform hexpand line.number queue
    rw [place, Layout.text_of] at hstep
    exact lines_subset_of_mem_stages hrun hmem hstep List.mem_cons_self

/-- The quote keeps the first line of the collection from being joined, so the reference behind it stays. -/
theorem remains_of_normalize_quote :
    let text := "A: [5\" x,\n  a, !Ref b]"
    let line := "A: [5\" x,".toList
    normalize .standard text = .ok text ∧ HasCall .read text.toList line ∧
      ∃ first queue, first :: queue ∈ stages .standard (numberLines 1 (linesOf text)) ∧ Unjoined first queue line := by
  intro text line
  have hout : normalize .standard text = .ok text := by decide +kernel
  have hlines : splitLines text.toList = [] ++ line :: ["  a, !Ref b]".toList] := by decide +kernel
  have hwhole : unwrapped (joinLines ["[5\" x,".toList, "  a, !Ref b]".toList]) = "[5\" x,   a, !Ref b]".toList := by
    decide +kernel
  have hquote : FlowText true ['5', '"', ' ', 'x'] := .plain ⟨rfl, by decide, by simp [endsPlain]⟩ (by decide)
  have hword : FlowText true ['a'] := .plain ⟨rfl, by decide, List.forall_mem_singleton.2 rfl⟩ (by decide)
  have hitems : ItemCall .read "5\" x,   a, !Ref b]".toList :=
    .next noSpace hquote noSpace (.next ⟨[' ', ' ', ' '], by simp [Text.isGap]⟩ hword noSpace (.item oneSpace (.here .ref _)))
  have hkey : BlockKey .read ['A'] := .plain rfl rfl
  have hcall : HasCall .read text.toList line :=
    ⟨[], "A: ".toList, "[5\" x,".toList, _, rfl, hlines, not_isCovered_nil _, .read (.key .nil hkey 0) (.value rfl (by decide))
      (hwhole ▸ by decide +kernel) (hwhole ▸ .sequence hitems)⟩
  exact ⟨hout, hcall, (remains_of_normalize hout).2.1 line hcall⟩

/-- A reference stays in a pair, too. -/
theorem hasCall_normalize_pair :
    normalize .standard "A: [k: !Ref b]" = .ok "A: [k: !Ref b]" ∧
      ¬∀ way line, ¬HasCall way "A: [k: !Ref b]".toList line := by
  let outer : Letters := ⟨['A'], by decide, List.forall_mem_singleton.2 rfl⟩
  let key : Letters := ⟨['k'], by decide, List.forall_mem_singleton.2 rfl⟩
  let word : Letters := ⟨['b'], by decide, List.forall_mem_singleton.2 rfl⟩
  obtain ⟨hkept, hcall⟩ := normalize_pairLine outer key word .ref
  exact ⟨hkept, fun hfree => hfree .missed _ hcall⟩

end CloudTemplate.Shorthand
