import CloudTemplate.Proofs.Shorthand.Continued
import CloudTemplate.Proofs.Shorthand.LongForms
import CloudTemplate.Proofs.Shorthand.NeverClosed
import CloudTemplate.Proofs.Shorthand.StrayBrackets
/-! Long forms whose argument goes on in the lines behind. Those lines are not joined, so the collection that the argument
opens is a fault of its line, where the tag of the function would take them: `normalize_broken_longForm`. -/
namespace CloudTemplate.Shorthand

inductive OpensCollection : List Char → Prop
  | bracket {cs : List Char} (h : opensBracket cs = true) : OpensCollection cs
  | tagged (f : Intrinsic) {spacing : Spacing} (apart : spacing.text ≠ []) {cs : List Char} (h : OpensCollection cs) :
      OpensCollection ('!' :: (f.tag.toList ++ (spacing.text ++ cs)))

namespace OpensCollection

variable {cs left : List Char} {value : Flow}

theorem opensFlow (h : OpensCollection cs) : opensFlow cs = true := by
  cases h with
  | bracket h => exact opensFlow_of_opensBracket h
  | tagged => rfl

theorem append (h : OpensCollection cs) (more : List Char) : OpensCollection (cs ++ more) := by
  induction h with
  | @bracket cs h =>
    refine .bracket ?_
    cases cs with
    | nil => contradiction
    | cons c cs => exact h
  | tagged f apart _ ih =>
    rw [List.cons_append, List.append_assoc, List.append_assoc]
    exact .tagged f apart ih

theorem flowAt_call (h : OpensCollection cs) (f : Intrinsic) {spacing : Spacing} (apart : spacing.text ≠ []) :
    flowAt false ('!' :: (f.tag.toList ++ (spacing.text ++ cs))) = mapRead (.call f) (flowAt false cs) := by
  have hopens := h.opensFlow
  have hargument : lacksArgument false cs = false := by
    cases cs with
    | nil => contradiction
    | cons c cs => rfl
  rw [flowAt_mark]
  exact tagAt_tag f false apart (afterGap_of_opensFlow hopens) hargument fun _ => isBlockIndicator_of_opensFlow hopens

/-- What is read of a collection is read of it with any text behind, which is left. -/
theorem flowAt_append (h : OpensCollection cs) (hread : flowAt false cs = .ok (value, left)) (more : List Char) :
    flowAt false (cs ++ more) = .ok (value, left ++ more) := by
  induction h generalizing value with
  | @bracket cs h =>
    cases cs with
    | nil => contradiction
    | cons c cs =>
      rw [opensBracket, Bool.or_eq_true, beq_iff_eq, beq_iff_eq] at h
      obtain rfl | rfl := h
      · rw [flowAt_bracket] at hread
        obtain ⟨items, hitems, rfl⟩ := mapRead_ok hread
        rw [List.cons_append, flowAt_bracket, items.itemsAt_append hitems]
        rfl
      · rw [flowAt_brace] at hread
        obtain ⟨pairs, hpairs, rfl⟩ := mapRead_ok hread
        rw [List.cons_append, flowAt_brace, pairs.pairsAt_append hpairs]
        rfl
  | tagged f apart h ih =>
    rw [h.flowAt_call f apart] at hread
    obtain ⟨argument, hargument, rfl⟩ := mapRead_ok hread
    rw [List.cons_append, List.append_assoc, List.append_assoc, (h.append more).flowAt_call f apart, ih hargument]
    rfl

theorem fragment_eq (h : OpensCollection cs) (hread : flowAt false cs = .ok (value, left)) :
    ∃ text, value.fragment = .structured text := by
  induction h generalizing value with
  | bracket h => exact fragment_of_opensBracket h hread
  | tagged f apart h ih =>
    rw [h.flowAt_call f apart] at hread
    obtain ⟨argument, hargument, rfl⟩ := mapRead_ok hread
    obtain ⟨text, htext⟩ := ih hargument
    exact ⟨_, by rw [Flow.fragment, htext]; rfl⟩

/-- A collection that is complete with a text behind it is not complete without the text. -/
theorem exists_fault (h : OpensCollection cs) {behind : List Char} (hbehind : behind ≠ [])
    (hread : flowAt false (cs ++ behind) = .ok (value, [])) : ∃ fault, flowAt false cs = .error fault := by
  cases hcs : flowAt false cs with
  | error fault => exact ⟨fault, rfl⟩
  | ok read =>
    have hwhole := h.flowAt_append hcs behind
    rw [hread] at hwhole
    have hnil : read.2 ++ behind = [] := (congrArg Prod.snd (Except.ok.inj hwhole)).symm
    exact absurd (List.append_eq_nil_iff.1 hnil).2 hbehind

end OpensCollection

theorem joinPieces_shortForm (f : Intrinsic) (argument : List Char) (lines : List SourceLine) :
    joinPieces (shortForm f argument) lines = shortForm f (joinPieces argument lines) := by
  simp [joinPieces, shortForm]

theorem trimEnd_joinPieces {joined : List Char} (h : Text.trimEnd joined = joined) (lines : List SourceLine) :
    Text.trimEnd (joinPieces joined lines) = joinPieces joined lines := by
  induction lines generalizing joined with
  | nil => simpa using h
  | cons line lines ih =>
    rw [joinPieces_cons]
    refine ih ?_
    by_cases hpiece : pieceOf line.text = []
    · simpa [joinPieces, hpiece] using h
    · have hend : Text.trimEnd (pieceOf line.text) = pieceOf line.text := Text.trimEnd_trimEnd _
      have hlonger : joinPieces joined [line] = joined ++ [' '] ++ pieceOf line.text := by simp [joinPieces, hpiece]
      rw [hlonger, Text.trimEnd_append hpiece hend]

theorem expandLongForm_fault {name : String} {argument : List Char} (hopens : OpensCollection (Text.trim argument))
    {fault : FlowFault} (h : flowAt false (Text.trim argument) = .error fault) :
    expandLongForm name argument = .error fault := by
  have hflow := hopens.opensFlow
  rw [expandLongForm_eq, if_neg (ne_nil_of_opensFlow hflow), if_neg (by simp [isBlockIndicator_of_opensFlow hflow]), h]

theorem expandLongForm_collection (name : String) {cs : List Char} {value : Flow} (hopens : OpensCollection cs)
    (hend : Text.trimEnd cs = cs) (hread : flowAt false cs = .ok (value, [])) :
    expandLongForm name cs = .ok (.inline (callText name value.fragment)) := by
  have hflow := hopens.opensFlow
  have hne := ne_nil_of_opensFlow hflow
  have htrim : Text.trim cs = cs := by
    obtain ⟨c, rest, rfl⟩ := List.exists_cons_of_ne_nil hne
    rw [Text.trim, Text.trimStart, List.dropWhile_cons_of_neg (by simp [isBlank_of_opensFlow_cons hflow]), hend]
  obtain ⟨text, htext⟩ := hopens.fragment_eq hread
  rw [expandLongForm_eq, htrim, if_neg hne, if_neg (by simp [isBlockIndicator_of_opensFlow hflow]), hread]
  simp [htext, applyName, Fragment.expansion, Fragment.text]

theorem expandValue_shortForm (f : Intrinsic) {cs : List Char} {value : Flow} (hopens : OpensCollection cs)
    (hread : flowAt false cs = .ok (value, [])) :
    expandValue (shortForm f cs) = .ok (.inline (callText f.longName value.fragment)) := by
  obtain ⟨text, htext⟩ := hopens.fragment_eq hread
  have hcall := hopens.flowAt_call f oneSpace_ne_nil
  rw [hread] at hcall
  have hfragment : (Flow.call f value).fragment = .structured (callText f.longName value.fragment) := by
    rw [Flow.fragment, htext]
    rfl
  have hexpand := expandValue_of_flowAt List.mem_cons_self rfl hcall hfragment
  rwa [List.append_nil] at hexpand

theorem step_of_longForm {options : Options} {text argument : List Char} {name : String}
    (hform : Form.of options (Layout.of text) = .longForm name argument) (number : Nat) (queue : List SourceLine) :
    step options ⟨number, text⟩ queue =
      (numbered number (expandLongForm name argument)).bind fun expansion =>
        place options number (Layout.of text) expansion queue := by
  simp [step, settle, hform, bind]

/-- The argument of a long form ends where its line ends. -/
theorem trimEnd_of_longForm {options : Options} {text argument : List Char} {name : String}
    (hform : Form.of options (Layout.of text) = .longForm name argument) : Text.trimEnd argument = argument := by
  obtain ⟨-, -, rfl | hvalue⟩ := splitLongForm_ok (Form.of_longForm hform)
  · rfl
  · refine Text.trimEnd_of_suffix ?_ (Layout.trimEnd_value text)
    exact ⟨name.toList ++ [':', ' '], by rw [← hvalue, List.append_assoc]; rfl⟩

theorem holdsNoComment_shortForm (f : Intrinsic) {argument : List Char} (h : HoldsNoComment .outside true argument) :
    HoldsNoComment .outside true (shortForm f argument) := by
  have hfront : IsInert ('!' :: f.tag.toList ++ [' ']) := isInert_of_isIdle fun c hc => by
    rw [List.mem_append, List.mem_cons, List.mem_singleton] at hc
    obtain (rfl | hc) | rfl := hc
    · rfl
    · exact isIdle_of (isAlphanum_of_mem_tag hc) rfl
    · rfl
  have hshort : shortForm f argument = '!' :: f.tag.toList ++ [' '] ++ argument := by simp [shortForm]
  rw [hshort]
  refine hfront.noComment.append_of_closesQuotes hfront.closes ?_
  rwa [startsBehind_concat]

/-- A tag whose argument goes on in the lines behind takes them, if no comment is left among them. -/
theorem step_shortForm (f : Intrinsic) {first : SourceLine} {taken rest : List SourceLine} {argument joined : List Char}
    {value : Flow} (hvalue : (Layout.of first.text).value = shortForm f argument) (hopen : isOpen first.text = true)
    (hjoin : joinFlow ((Layout.of first.text).lead ++ (Layout.of first.text).value) (taken ++ rest) =
      some (joined, taken, rest))
    (hopens : OpensCollection argument) (hend : Text.trimEnd argument = argument)
    (hcomment : HoldsNoComment .outside true (joinPieces argument taken))
    (hread : flowAt false (joinPieces argument taken) = .ok (value, [])) :
    step .standard first (taken ++ rest) =
      .ok ⟨[(Layout.of first.text).lead ++ callText f.longName value.fragment], rest⟩ := by
  have hflow : opensFlow (Layout.of first.text).value = true := hvalue ▸ rfl
  have hform : Form.of .standard (Layout.of first.text) = .openFlow := Form.of_eq_openFlow hflow (by simpa [isOpen] using hopen)
  have hjoined : joined = (Layout.of first.text).lead ++ shortForm f (joinPieces argument taken) := by
    rw [joinFlow_eq_some hjoin, joinPieces_append, hvalue, joinPieces_shortForm]
  have hwhole : OpensCollection (joinPieces argument taken) := hopens.append _
  have hne := ne_nil_of_opensFlow hwhole.opensFlow
  have hlayout : Layout.of joined = ⟨(Layout.of first.text).opening, (Layout.of first.text).key,
      shortForm f (joinPieces argument taken), []⟩ := by
    rw [hjoined]
    refine Layout.of_lead_noComment hflow rfl ?_ (holdsNoComment_shortForm f hcomment)
    have hshort : shortForm f (joinPieces argument taken) = '!' :: f.tag.toList ++ [' '] ++ joinPieces argument taken := by
      simp [shortForm]
    rw [hshort]
    exact Text.trimEnd_append hne (trimEnd_joinPieces hend taken)
  have hother : Form.of .standard (Layout.of joined) = .other := by
    have hclosed := (joinFlow_closes hjoin).2
    refine Form.of_eq_other (by rw [hlayout]; rfl) (.inr (splitLongForm_of_opensFlow (by rw [hlayout]; rfl))) fun _ => ?_
    simpa [isOpen] using hclosed
  have hexpand : expandValue (Layout.of joined).value = .ok (.inline (callText f.longName value.fragment)) := by
    rw [hlayout]
    exact expandValue_shortForm f hwhole hread
  have hmark : hasMark joined = true := by simp [hasMark, hjoined, shortForm]
  calc step .standard first (taken ++ rest) = settle .standard first.number joined rest :=
        (step_joined hform rfl hjoin).trans (if_pos hmark)
    _ = step .standard ⟨first.number, joined⟩ rest := by simp [step, hother]
    _ = .ok ⟨[(Layout.of joined).lead ++ callText f.longName value.fragment ++ (Layout.of joined).trailing], rest⟩ :=
        step_of_expandValue hother hexpand first.number rest
    _ = .ok ⟨[(Layout.of first.text).lead ++ callText f.longName value.fragment], rest⟩ := by
        rw [hlayout, List.append_nil]
        rfl

/-- Whether an argument opens a collection that is complete with the lines that follow, and with none of them is not. -/
structure GoesOn (argument : List Char) (taken : List SourceLine) (value : Flow) : Prop where
  opens : OpensCollection argument
  longer : joinPieces argument taken ≠ argument
  closes : flowAt false (joinPieces argument taken) = .ok (value, [])

theorem GoesOn.exists_fault {argument : List Char} {taken : List SourceLine} {value : Flow}
    (h : GoesOn argument taken value) : ∃ fault, flowAt false argument = .error fault := by
  refine h.opens.exists_fault (fun hnil => h.longer ?_) h.closes
  rw [joinPieces, hnil, List.append_nil]

/-- A long form whose argument goes on in the lines behind is a fault of its line, in every document in which the run comes
to the line. With the whole argument on the line it becomes the call, and so does the tag of the function, which takes
those lines. -/
theorem normalize_broken_longForm {text : String} {lines : List (List Char)} {line : SourceLine}
    {taken rest : List SourceLine} {name : String} {argument : List Char} {value : Flow}
    (hreach : Reaches .standard (numberLines 1 (linesOf text)) lines (line :: (taken ++ rest)))
    (hform : Form.of .standard (Layout.of line.text) = .longForm name argument)
    (hargument : GoesOn (Text.trim argument) taken value) :
    (∃ fault, flowAt false (Text.trim argument) = .error fault ∧
        normalize .standard text = .error ⟨line.number, .flow fault⟩) ∧
      (∀ whole, Form.of .standard (Layout.of whole) = .longForm name (joinPieces (Text.trim argument) taken) →
        ∀ number queue, step .standard ⟨number, whole⟩ queue =
          .ok ⟨[(Layout.of whole).lead ++ callText name value.fragment ++ (Layout.of whole).trailing], queue⟩) ∧
      ∀ (f : Intrinsic) (first : SourceLine) (joined : List Char), f.longName = name →
        (Layout.of first.text).value = shortForm f (Text.trim argument) → isOpen first.text = true →
        joinFlow ((Layout.of first.text).lead ++ (Layout.of first.text).value) (taken ++ rest) =
          some (joined, taken, rest) →
        HoldsNoComment .outside true (joinPieces (Text.trim argument) taken) →
        step .standard first (taken ++ rest) =
          .ok ⟨[(Layout.of first.text).lead ++ callText name value.fragment], rest⟩ := by
  refine ⟨?_, fun whole hwhole number queue => ?_, ?_⟩
  · obtain ⟨fault, hfault⟩ := hargument.exists_fault
    have hstep : step .standard line (taken ++ rest) = .error ⟨line.number, .flow fault⟩ := by
      rw [step_of_longForm hform, expandLongForm_fault hargument.opens hfault]
      rfl
    refine ⟨fault, hfault, ?_⟩
    rw [normalize_eq_map, hreach.run, normalizeLines_cons, hstep]
    rfl
  · have hopens : OpensCollection (joinPieces (Text.trim argument) taken) := hargument.opens.append _
    rw [step_of_longForm hwhole, expandLongForm_collection name hopens (trimEnd_of_longForm hwhole) hargument.closes]
    rfl
  · rintro f first joined rfl hvalue hopen hjoin hcomment
    exact step_shortForm f hvalue hopen hjoin hargument.opens (Text.trimEnd_trimEnd _) hcomment hargument.closes

/-- A list broken behind two of its commas, with a comment and an empty line. -/
theorem normalize_broken_longForm_list :
    let taken : List SourceLine := [⟨3, []⟩, ⟨4, "  [!Ref a,".toList⟩, ⟨5, "  b]]".toList⟩]
    let whole := "K: \x7b \"Fn::Join\" : [\",\", [\x7b \"Ref\" : \"a\" \x7d, b]] \x7d".toList
    normalize .standard "A: 1\nK: Fn::Join: [\",\", # c\n\n  [!Ref a,\n  b]]\nB: 2" =
        .error ⟨2, .flow .openSequence⟩ ∧
      step .standard ⟨2, "K: Fn::Join: [\",\", [!Ref a, b]]".toList⟩ [] = .ok ⟨[whole], []⟩ ∧
      step .standard ⟨2, "K: !Join [\",\", # c".toList⟩ (taken ++ [⟨6, "B: 2".toList⟩]) =
        .ok ⟨[whole], [⟨6, "B: 2".toList⟩]⟩ := by
  intro taken whole
  let line : SourceLine := ⟨2, "K: Fn::Join: [\",\", # c".toList⟩
  let rest : List SourceLine := [⟨6, "B: 2".toList⟩]
  have hlines : linesOf "A: 1\nK: Fn::Join: [\",\", # c\n\n  [!Ref a,\n  b]]\nB: 2" =
      ["A: 1".toList, line.text, [], "  [!Ref a,".toList, "  b]]".toList, "B: 2".toList] := by decide
  have hfirst : step .standard ⟨1, "A: 1".toList⟩ (line :: (taken ++ rest)) =
      .ok ⟨["A: 1".toList], line :: (taken ++ rest)⟩ := by decide +kernel
  have hreach : Reaches .standard (numberLines 1 (linesOf "A: 1\nK: Fn::Join: [\",\", # c\n\n  [!Ref a,\n  b]]\nB: 2"))
      ["A: 1".toList] (line :: (taken ++ rest)) := by
    rw [hlines]
    exact Reaches.start.step hfirst
  have hread : flowAt false "[\",\", [!Ref a, b]]".toList = .ok (.sequence (.more [] (.quoted ",".toList) []
      (.last " ".toList (.sequence (.more [] (.call .ref (.plain "a".toList)) [] (.last " ".toList (.plain "b".toList) [])))
        [])), []) := by with_unfolding_all rfl
  have htrim : Text.trim "[\",\",".toList = "[\",\",".toList := by decide
  have hjoined : joinPieces "[\",\",".toList taken = "[\",\", [!Ref a, b]]".toList := by decide +kernel
  have hform : Form.of .standard (Layout.of line.text) = .longForm "Fn::Join" "[\",\",".toList := by decide +kernel
  obtain ⟨⟨fault, hfault, herror⟩, hwhole, hshort⟩ := normalize_broken_longForm hreach hform
      ⟨.bracket (by rw [htrim]; rfl), by rw [htrim]; decide +kernel, by rw [htrim, hjoined]; exact hread⟩
  rw [htrim] at hfault hwhole hshort
  have hopen : flowAt false "[\",\",".toList = .error .openSequence := by with_unfolding_all rfl
  rw [hopen] at hfault
  cases hfault
  refine ⟨herror, (hwhole _ (by rw [hjoined]; decide +kernel) 2 []).trans (by decide +kernel), ?_⟩
  refine (hshort .join ⟨2, "K: !Join [\",\", # c".toList⟩ "K: !Join [\",\", [!Ref a, b]]".toList rfl (by decide +kernel)
    (by decide +kernel) (by decide +kernel) ?_).trans (by decide +kernel)
  rw [hjoined]
  exact holdsNoComment_of_not_mem (by decide) _ _

/-- A list broken behind its comma is a fault behind the long name. On one line it is none, and behind the tag neither. -/
theorem normalize_longForm_unjoined :
    normalize .standard "K: Fn::Join: [a,\n  b]" = .error ⟨1, .flow .openSequence⟩ ∧
      normalize .standard "K: Fn::Join: [a, b]" = .ok "K: \x7b \"Fn::Join\" : [a, b] \x7d" ∧
      normalize .standard "K: !Join [a,\n  b]" = .ok "K: \x7b \"Fn::Join\" : [a, b] \x7d" :=
  ⟨by decide +kernel, by decide +kernel, by decide +kernel⟩

end CloudTemplate.Shorthand
