import CloudTemplate.Proofs.Shorthand.Replacing
import CloudTemplate.Proofs.Shorthand.Soundness
/-! Lines that normalization leaves as they are: lines of keys, and lines whose values have been written out. What
trails a value trails the text that it becomes. -/
namespace CloudTemplate.Shorthand

theorem holdsNoComment_splitCommentFrom (q : Quoting) (atStart : Bool) (cs : List Char) :
    HoldsNoComment q atStart (splitCommentFrom q atStart cs).1 := by
  induction cs generalizing q atStart with
  | nil => rfl
  | cons c cs ih =>
    rw [splitCommentFrom]
    split
    · rfl
    · rename_i hc
      rw [HoldsNoComment, splitCommentFrom, if_neg hc]
      exact ih _ _

theorem startsBehind_of_trimEnd {cs : List Char} (hne : cs ≠ []) (h : Text.trimEnd cs = cs) (atStart : Bool) :
    startsBehind atStart cs = false := by
  have hlast := Text.isBlank_getLast_trimEnd cs
  rw [h] at hlast
  obtain ⟨front, c, rfl⟩ := (List.eq_nil_or_concat' cs).resolve_left hne
  have hc : Text.isBlank c = false := hlast c (by simp)
  rw [startsBehind_concat]
  refine beq_false_of_ne fun hspace => ?_
  rw [hspace] at hc
  contradiction

namespace Layout

theorem exists_ofRest (line : List Char) : ∃ rest, of line = ofRest (of line).opening (of line).key rest := by
  simp only [of]
  split <;> exact ⟨_, rfl⟩

/-- A value is split from the blanks and the comment that trail it. -/
theorem split_of (line : List Char) : ∃ blanks comment, (of line).trailing = blanks ++ comment ∧
    splitCommentFrom .outside true ((of line).value ++ (of line).trailing) = ((of line).value ++ blanks, comment) ∧
      ∀ c ∈ blanks, Text.isBlank c = true := by
  obtain ⟨rest, hrest⟩ := exists_ofRest line
  obtain ⟨blanks, hbody, hblanks⟩ := Text.exists_trimEnd_append (splitCommentFrom .outside true rest).1
  have hsplit := splitCommentFrom_append .outside true rest
  have hvalue : (of line).value = Text.trimEnd (splitCommentFrom .outside true rest).1 := by rw [hrest]; rfl
  have htrailing : (of line).trailing = blanks ++ (splitCommentFrom .outside true rest).2 := by
    rw [hrest]
    simp only [ofRest]
    congr 1
    exact List.append_cancel_left ((append_drop_of_append hbody).trans hbody.symm)
  refine ⟨blanks, _, htrailing, ?_, hblanks⟩
  rw [htrailing, hvalue, ← List.append_assoc, hbody, hsplit]

theorem trimEnd_value (line : List Char) : Text.trimEnd (of line).value = (of line).value := by
  obtain ⟨rest, hrest⟩ := exists_ofRest line
  rw [hrest]
  exact Text.trimEnd_trimEnd _

theorem holdsNoComment_value (line : List Char) : HoldsNoComment .outside true (of line).value := by
  obtain ⟨rest, hrest⟩ := exists_ofRest line
  have hbody := holdsNoComment_splitCommentFrom .outside true rest
  obtain ⟨blanks, happend, -⟩ := Text.exists_trimEnd_append (splitCommentFrom .outside true rest).1
  rw [hrest]
  exact (happend ▸ hbody).of_append.1

theorem ofRest_append (opening : List Char) (key : Option (List Char × List Char)) {value blanks comment : List Char}
    (h : splitCommentFrom .outside true (value ++ (blanks ++ comment)) = (value ++ blanks, comment))
    (hblanks : ∀ c ∈ blanks, Text.isBlank c = true) (hend : Text.trimEnd value = value) :
    ofRest opening key (value ++ (blanks ++ comment)) = ⟨opening, key, value, blanks ++ comment⟩ := by
  simp [ofRest, h, Text.trimEnd_append_blank value hblanks, hend]

/-- A collection or a tag that closes its quotes and holds no comment, in the place of a value. -/
theorem of_value_append {line cs : List Char} (hvalue : (of line).value ≠ []) (hopens : opensFlow cs = true)
    (hend : Text.trimEnd cs = cs) (hcloses : closesQuotes cs = true) (hcomment : HoldsNoComment .outside true cs) :
    of ((of line).lead ++ cs ++ (of line).trailing) = ⟨(of line).opening, (of line).key, cs, (of line).trailing⟩ := by
  obtain ⟨blanks, comment, htrailing, hblanks, hbehind⟩ := isTrailing hvalue
  have hsplit := splitCommentFrom_append_of_noComment hcomment (blanks ++ comment)
  rw [closesQuotes_iff.1 hcloses, startsBehind_of_trimEnd (ne_nil_of_opensFlow hopens) hend] at hsplit
  rw [List.append_assoc, of_lead_append hvalue (opensFlow_of_append (List.prefix_append _ _) hopens), htrailing]
  refine ofRest_append _ _ ?_ hblanks hend
  rw [hsplit, splitCommentFrom_comment (fun d hd => ⟨ne_of_isBlank (hblanks d hd) rfl, ne_of_isBlank (hblanks d hd) rfl⟩)
    (show IsComment (if false then some ' ' else none) blanks comment from hbehind)]

/-- A text in the place of the part of a value that it was made of. -/
theorem of_written {line text left : List Char} (hvalue : (of line).value ≠ []) (hagain : ReadsAgain left text)
    (hinert : IsInert text)
    (hbehind : left = [] ∨ ∃ source, (of line).value = source ++ left ∧ IsBalanced 0 source) :
    of ((of line).lead ++ (text ++ left) ++ (of line).trailing) =
      ⟨(of line).opening, (of line).key, text ++ left, (of line).trailing⟩ := by
  by_cases hleft : left = []
  · rw [hleft, List.append_nil]
    exact of_value_append hvalue hagain.opens hagain.ends hinert.closes hinert.noComment
  · have hafter := startsBehind_of_trimEnd (ne_nil_of_opensFlow hagain.opens) hagain.ends true
    have hopens : opensFlow (text ++ left ++ (of line).trailing) = true :=
      opensFlow_of_append ⟨left ++ (of line).trailing, by rw [List.append_assoc]⟩ hagain.opens
    rw [List.append_assoc, of_lead_append hvalue hopens]
    obtain ⟨source, hsource, hbalanced⟩ := hbehind.resolve_left hleft
    obtain ⟨blanks, comment, htrailing, hsplit, hblanks⟩ := split_of line
    have hend : Text.trimEnd (text ++ left) = text ++ left :=
      Text.trimEnd_append hleft (Text.trimEnd_of_suffix ⟨source, hsource.symm⟩ (trimEnd_value line))
    -- The quotes and the spaces behind the two values are the same.
    have hnone := holdsNoComment_value line
    have hleftNone := (hsource ▸ hnone).of_append.2
    rw [closesQuotes_iff.1 hbalanced.closes] at hleftNone
    have hwritten : HoldsNoComment .outside true (text ++ left) :=
      hinert.noComment.append_of_closesQuotes hinert.closes (hleftNone.mono (hafter ▸ Bool.false_le _))
    rw [splitCommentFrom_append_of_noComment hnone] at hsplit
    obtain ⟨hfirst, hsecond⟩ := Prod.mk.inj hsplit
    have hstate : Quoting.after .outside (text ++ left) = Quoting.after .outside (of line).value := by
      rw [hsource, Quoting.after_append, Quoting.after_append, closesQuotes_iff.1 hinert.closes,
        closesQuotes_iff.1 hbalanced.closes]
    have hstarts : startsBehind true (text ++ left) = startsBehind true (of line).value := by
      rw [hsource, startsBehind_append, startsBehind_append]
      exact startsBehind_of_ne_nil hleft _ _
    rw [htrailing] at hfirst hsecond ⊢
    refine ofRest_append _ _ ?_ hblanks hend
    rw [splitCommentFrom_append_of_noComment hwritten, hstate, hstarts, List.append_cancel_left hfirst, hsecond]

end Layout

def IsFixed (text : List Char) : Prop := ∀ number queue, step .standard ⟨number, text⟩ queue = .ok ⟨[text], queue⟩

/-- A line that is complete by itself is put out with its value expanded. -/
theorem step_of_other {options : Options} {text : List Char} {expansion : Expansion}
    (hform : Form.of options (Layout.of text) = .other) (h : expandValue (Layout.of text).value = .ok expansion)
    (number : Nat) (queue : List SourceLine) :
    step options ⟨number, text⟩ queue = place options number (Layout.of text) expansion queue := by
  simp [step, settle, hform, h, numbered, bind, Except.bind]

theorem step_of_expandValue {text value : List Char} (hform : Form.of .standard (Layout.of text) = .other)
    (h : expandValue (Layout.of text).value = .ok (.inline value)) (number : Nat) (queue : List SourceLine) :
    step .standard ⟨number, text⟩ queue =
      .ok ⟨[(Layout.of text).lead ++ value ++ (Layout.of text).trailing], queue⟩ := by
  have helongate : Options.standard.isEnabled .elongate = true := rfl
  rw [step_of_other hform h, place, helongate, Bool.true_or, if_pos rfl]

theorem isFixed_of_expandValue {text : List Char} (hform : Form.of .standard (Layout.of text) = .other)
    (h : expandValue (Layout.of text).value = .ok .unchanged ∨
      expandValue (Layout.of text).value = .ok (.inline (Layout.of text).value)) : IsFixed text := by
  intro number queue
  have htext := Layout.text_of text
  obtain h | h := h
  · rw [step_of_other hform h, place, htext]
  · rw [step_of_expandValue hform h, ← Layout.text, htext]

theorem Form.of_eq_other {options : Options} {layout : Layout} (hindicator : isBlockIndicator layout.value = false)
    (hlong : layout.key = none ∨ splitLongForm layout.value = none)
    (hclosed : opensFlow layout.value = true → bracketBalance layout.value ≤ 0) : Form.of options layout = .other := by
  have hsplit : (if options.isEnabled .correctLong && layout.keyColumn.isSome then splitLongForm layout.value
      else none) = none := by
    obtain hkey | hlong := hlong
    · simp [Layout.keyColumn, hkey]
    · simp [hlong]
  have hflow : (opensFlow layout.value && decide (0 < bracketBalance layout.value)) = false := by
    cases hopens : opensFlow layout.value with
    | false => rfl
    | true => simpa using hclosed hopens
  rw [Form.of, if_neg (by simp [hindicator]), hsplit]
  simp [hflow]

theorem Form.balance_of_other {options : Options} {layout : Layout} (h : Form.of options layout = .other)
    (hopens : opensFlow layout.value = true) : bracketBalance layout.value ≤ 0 := by
  rw [Form.of] at h
  split at h
  · contradiction
  · split at h
    · contradiction
    · split at h
      · contradiction
      · rename_i hflow
        simpa [hopens] using hflow

theorem KeyLine.isFixed {line : List Char} (h : KeyLine line) : IsFixed line := by
  have hopens := h.opensFlow
  have hform : Form.of .standard (Layout.of line) = .other := by
    obtain hvalue | ⟨hkey, -, hindicator⟩ := h.value
    · exact Form.of_eq_other (by rw [hvalue]; rfl) (.inr (by rw [hvalue]; rfl)) (by simp [hopens])
    · exact Form.of_eq_other hindicator (.inl hkey) (by simp [hopens])
  refine isFixed_of_expandValue hform (.inl ?_)
  rw [expandValue_eq, hopens, Bool.and_false]
  rfl

theorem isBlockIndicator_of_opensFlow {cs : List Char} (h : opensFlow cs = true) : isBlockIndicator cs = false := by
  refine Bool.eq_false_iff.2 fun hindicator => ?_
  rw [opensFlow_of_isBlockIndicator hindicator] at h
  contradiction

theorem Form.of_eq_openFlow {options : Options} {layout : Layout} (hopens : opensFlow layout.value = true)
    (hbalance : 0 < bracketBalance layout.value) : Form.of options layout = .openFlow := by
  have hlong : (if options.isEnabled .correctLong && layout.keyColumn.isSome then splitLongForm layout.value
      else none) = none := by
    rw [splitLongForm_of_opensFlow hopens, ite_self]
  rw [Form.of, isBlockIndicator_of_opensFlow hopens, if_neg Bool.false_ne_true, hlong]
  simp [hopens, hbalance]

/-- A line whose value has been written out. -/
theorem isFixed_written {line text left : List Char} (hvalue : (Layout.of line).value ≠ [])
    (hagain : ReadsAgain left text) (hinert : IsInert text)
    (hbehind : left = [] ∨ ∃ source, (Layout.of line).value = source ++ left ∧ IsBalanced 0 source)
    (hbalance : left ≠ [] → bracketBalance (Layout.of line).value ≤ 0) :
    IsFixed ((Layout.of line).lead ++ (text ++ left) ++ (Layout.of line).trailing) := by
  have hlayout := Layout.of_written hvalue hagain hinert hbehind
  have hopens : opensFlow (text ++ left) = true := Layout.opensFlow_of_append ⟨left, rfl⟩ hagain.opens
  have hclosed : bracketBalance (text ++ left) ≤ 0 := by
    rw [bracketBalance_append hinert.closes, hinert.balance, Int.zero_add]
    by_cases hleft : left = []
    · exact Int.le_of_eq (by rw [hleft]; rfl)
    · obtain ⟨source, hsource, hbalanced⟩ := hbehind.resolve_left hleft
      have hle := hbalance hleft
      rwa [hsource, bracketBalance_append hbalanced.closes, hbalanced.balance, Int.zero_add] at hle
  refine isFixed_of_expandValue (Form.of_eq_other ?_ (.inr ?_) fun _ => ?_) ?_
  · rw [hlayout]
    exact isBlockIndicator_of_opensFlow hopens
  · rw [hlayout]
    exact splitLongForm_of_opensFlow hopens
  · rw [hlayout]
    exact hclosed
  · rw [hlayout]
    exact expandValue_of_reads hagain.reads

def isSteadyValue (cs : List Char) : Bool :=
  match flowAt false cs with
  | .ok (value, _) => value.isSteadyOnLine
  | .error _ => true

def Expansion.IsSettled (line : List Char) : Expansion → Prop
  | .unchanged => IsFixed line
  | .inline text =>
    IsFixed ((Layout.of line).lead ++ text ++ (Layout.of line).trailing) ∧ ('\'' ∉ line → '\'' ∉ text)
  | .block .. => True

theorem not_mem_value {c : Char} {line : List Char} (h : c ∉ line) : c ∉ (Layout.of line).value := by
  rw [← Layout.text_of line] at h
  exact fun hmem => h (List.mem_append_left _ (List.mem_append_right _ hmem))

theorem isSettled_expandValue {line : List Char} {expansion : Expansion} (hline : '\n' ∉ line)
    (hform : Form.of .standard (Layout.of line) = .other)
    (hsteady : (hasMark (Layout.of line).value && opensFlow (Layout.of line).value) = true →
      isSteadyValue (Layout.of line).value = true)
    (h : expandValue (Layout.of line).value = .ok expansion) : expansion.IsSettled line := by
  have hexpand := h
  rw [expandValue_eq] at h
  split at h
  · rename_i hmark
    have hopens : opensFlow (Layout.of line).value = true := (Bool.and_eq_true_iff.1 hmark).2
    have hvalue := ne_nil_of_opensFlow hopens
    split at h
    · contradiction
    · rename_i value left hread
      have hsteady := hsteady hmark
      rw [isSteadyValue, hread] at hsteady
      have hargument := value.isArgument hread (not_mem_value hline) (Layout.trimEnd_value line) hsteady
      have hsettles := value.settlesIn hread hsteady (Layout.trimEnd_value line) (Layout.holdsNoComment_value line)
      obtain ⟨text, htext⟩ | ⟨names, indicator, htext⟩ := Flow.fragment_cases hread hopens
      · rw [htext] at h hargument hsettles
        cases h
        have hsettles := hsettles fun _ _ => Fragment.noConfusion
        refine ⟨isFixed_written hvalue hargument (hsettles.argument "") hsettles.behind
          fun _ => Form.balance_of_other hform hopens, fun hsingle => ?_⟩
        rw [List.mem_append, not_or]
        refine ⟨hsettles.single (not_mem_value hsingle) "", fun hmem => ?_⟩
        obtain hnil | ⟨source, hsource, -⟩ := hsettles.behind
        · rw [hnil] at hmem
          contradiction
        · exact not_mem_value hsingle (hsource ▸ List.mem_append_right source hmem)
      · rw [htext] at h
        cases h
        trivial
  · cases h
    exact isFixed_of_expandValue hform (.inl hexpand)

/-- No comment starts in what is left of a text without blanks around it. -/
theorem HoldsNoComment.trim {atStart : Bool} {cs : List Char} (h : HoldsNoComment .outside atStart cs) :
    ∃ other, HoldsNoComment .outside other (Text.trim cs) := by
  have hblanks : IsInert (cs.takeWhile Text.isBlank) :=
    isInert_of_isIdle fun c hc => isIdle_of (List.mem_takeWhile_imp hc) rfl
  rw [← List.takeWhile_append_dropWhile (p := Text.isBlank) (l := cs)] at h
  have hstart := h.of_append.2
  rw [closesQuotes_iff.1 hblanks.closes] at hstart
  obtain ⟨rest, hrest⟩ := Text.prefix_trimEnd (cs.dropWhile Text.isBlank)
  exact ⟨_, (hrest ▸ hstart).of_append.1⟩

/-- Nor in the argument of a function by its long name. -/
theorem holdsNoComment_argument {line argument : List Char} {name : String}
    (h : splitLongForm (Layout.of line).value = some (name, argument)) :
    ∃ other, HoldsNoComment .outside other (Text.trim argument) := by
  obtain ⟨-, hname, hparts⟩ := splitLongForm_ok h
  obtain hnil | happend := hparts
  · exact ⟨true, by rw [hnil]; rfl⟩
  · have hfront : IsInert (name.toList ++ [':', ' ']) :=
      (isInert_of_isIdle fun c hc => isIdle_of_isNameChar (hname c hc)).append ⟨⟨rfl, rfl⟩, rfl⟩
    have hsplit : name.toList ++ [':', ' '] ++ argument = (Layout.of line).value := by
      rw [← happend, List.append_assoc]
      rfl
    have hargument := (hsplit ▸ Layout.holdsNoComment_value line).of_append.2
    rw [closesQuotes_iff.1 hfront.closes] at hargument
    exact hargument.trim

theorem isSettled_expandLongForm {line argument : List Char} {name : String} {expansion : Expansion} (hline : '\n' ∉ line)
    (hlong : splitLongForm (Layout.of line).value = some (name, argument))
    (hsteady : isSteadyValue (Text.trim argument) = true) (h : expandLongForm name argument = .ok expansion) :
    expansion.IsSettled line := by
  obtain ⟨hvalue, hname, -⟩ := splitLongForm_ok hlong
  have hmem {c : Char} (hc : c ∉ line) : c ∉ Text.trim argument := fun hmem =>
    not_mem_argument hlong (not_mem_value hc) ((List.dropWhile_sublist _).subset ((Text.prefix_trimEnd _).subset hmem))
  have hcomment := holdsNoComment_argument hlong
  have hend : Text.trimEnd (Text.trim argument) = Text.trim argument := Text.trimEnd_trimEnd _
  rw [expandLongForm_eq] at h
  generalize Text.trim argument = argument at h hmem hcomment hend hsteady
  split at h
  · cases h
    trivial
  · split at h
    · cases h
      trivial
    · split at h
      · contradiction
      · rename_i value left hread
        rw [isSteadyValue, hread] at hsteady
        obtain ⟨other, hcomment⟩ := hcomment
        have hargument := (value.isArgument hread (hmem hline) hend hsteady).applyName hname []
        have hsettles := value.settlesIn hread hsteady hend hcomment
        have hcall (hagain : ReadsAgain [] (callText name value.fragment))
            (hsettled : ∀ names indicator, value.fragment ≠ .waiting names indicator) :
            (Expansion.inline (callText name value.fragment)).IsSettled line := by
          have hsettles := hsettles hsettled
          have hfixed := isFixed_written hvalue hagain (isInert_callText hname (hsettles.argument name)) (.inl rfl)
            fun hne => absurd rfl hne
          rw [List.append_nil] at hfixed
          exact ⟨hfixed, fun hsingle => not_mem_callText hname (hsettles.single (hmem hsingle) name)⟩
        split at h
        · generalize value.fragment = fragment at h hargument hcall
          cases fragment with
          | waiting =>
            cases h
            trivial
          | _ =>
            cases h
            simpa [applyName, Fragment.expansion, Fragment.text] using hcall hargument fun _ _ => Fragment.noConfusion
        · contradiction

end CloudTemplate.Shorthand
