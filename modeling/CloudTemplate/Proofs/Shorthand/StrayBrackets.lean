import CloudTemplate.Proofs.Shorthand.FixedLines
/-! Brackets inside plain scalars. Reading takes them for text, and the count of brackets takes them for brackets, so a
collection that is complete on its line may count as open: `bracketBalance_complete`. -/
namespace CloudTemplate.Shorthand

mutual

/-- The brackets that the plain scalars, the keys and the foreign tags of a value open, less those that they close. -/
def Flow.strays : Flow → Int
  | .plain cs => bracketBalance cs
  | .quoted _ | .opened .. => 0
  | .sequence items => items.strays
  | .mapping pairs => pairs.strays
  | .kept tag value => bracketBalance tag + value.strays
  | .call _ argument => argument.strays
termination_by structural value => value

def Items.strays : Items → Int
  | .close _ => 0
  | .last _ value _ => value.strays
  | .more _ value _ rest => value.strays + rest.strays
termination_by structural items => items

def Pairs.strays : Pairs → Int
  | .close _ => 0
  | .last _ key _ slot => bracketBalance key + slot.strays
  | .more _ key _ slot rest => bracketBalance key + slot.strays + rest.strays
termination_by structural pairs => pairs

def Slot.strays : Slot → Int
  | .bare | .empty _ => 0
  | .filled _ value _ => value.strays
termination_by structural slot => slot

end

abbrev Flow.quotesClosed (value : Flow) : Bool := value.all closesQuotes fun tag _ => closesQuotes tag

theorem isBalanced_gapOf (cs : List Char) : IsBalanced 0 (gapOf cs) := (isInert_gapOf cs).toIsBalanced

theorem isBalanced_of_closesQuotes {cs : List Char} (h : closesQuotes cs = true) : IsBalanced (bracketBalance cs) cs :=
  ⟨h, rfl⟩

/-- A balanced text whose weight is written otherwise. -/
theorem IsBalanced.of_eq {m n : Int} {cs : List Char} (h : IsBalanced m cs) (hweight : m = n) : IsBalanced n cs := hweight ▸ h

mutual

theorem Flow.isBalanced_source (value : Flow) {cs left : List Char} (h : flowAt true cs = .ok (value, left))
    (hall : value.quotesClosed = true) : ∃ source, afterGap cs = source ++ left ∧ IsBalanced value.strays source := by
  have hsame (hscalar : (∃ text, value = .plain text) ∨ ∃ text, value = .quoted text) :
      afterGap cs = value.fragment.text ++ left :=
    List.append_cancel_left ((gapOf_append_afterGap cs).trans (text_append_of_scalar h hscalar).symm)
  -- The brackets of a collection cancel out, so only scalars, keys and tags count.
  cases value with
  | plain text => exact ⟨text, hsame (.inl ⟨text, rfl⟩), isBalanced_of_closesQuotes hall⟩
  | quoted text =>
    have hstays : staysQuoted text = true := by
      cases flowAt_ok h with
      | quoted _ hclose => exact (closeQuote_ok hclose).1
    exact ⟨inQuotes text, hsame (.inr ⟨text, rfl⟩), (isInert_inQuotes hstays).toIsBalanced⟩
  | sequence items =>
    cases flowAt_ok h with
    | sequence hcs hread =>
      obtain ⟨source, hsource, hitems⟩ := items.isBalanced_source hread hall
      have hopen : IsBalanced 1 ['['] := ⟨rfl, rfl⟩
      exact ⟨'[' :: source, by rw [hcs, hsource]; rfl, (hopen.append hitems).of_eq (by rw [Flow.strays]; omega)⟩
  | mapping pairs =>
    cases flowAt_ok h with
    | mapping hcs hread =>
      obtain ⟨source, hsource, hpairs⟩ := pairs.isBalanced_source hread hall
      have hopen : IsBalanced 1 ['\x7b'] := ⟨rfl, rfl⟩
      exact ⟨'\x7b' :: source, by rw [hcs, hsource]; rfl, (hopen.append hpairs).of_eq (by rw [Flow.strays]; omega)⟩
  | kept tag inner =>
    cases flowAt_ok h with
    | @kept rest _ _ hcs hread =>
      obtain ⟨htag, hall⟩ := Bool.and_eq_true_iff.1 hall
      obtain ⟨source, hsource, hinner⟩ := inner.isBalanced_source hread hall
      have hgap := isBalanced_gapOf (rest.dropWhile fun c => !isTagEnd c)
      refine ⟨_, ?_, ((isBalanced_of_closesQuotes htag).append (hgap.append hinner)).of_eq (by rw [Flow.strays]; omega)⟩
      rw [hcs, List.append_assoc, List.append_assoc, ← hsource, gapOf_append_afterGap, List.cons_append, List.cons_append,
        List.takeWhile_append_dropWhile]
  | call f argument =>
    cases flowAt_ok h with
    | @call rest _ _ _ hcs hread =>
      obtain ⟨source, hsource, hargument⟩ := argument.isBalanced_source hread hall
      obtain ⟨front, hfront, hrest⟩ := exists_tag rest
      refine ⟨'!' :: front ++ source, ?_, (hfront.toIsBalanced.append hargument).of_eq (by rw [Flow.strays]; omega)⟩
      rw [afterGap_afterName] at hsource
      rw [hcs, hrest, hsource, List.cons_append, List.cons_append, List.append_assoc]
  | opened =>
    cases flowAt_ok h with
    | opened _ _ hflow => contradiction
    | announced _ _ hflow => contradiction

theorem Items.isBalanced_source (items : Items) {cs left : List Char} (h : itemsAt cs = .ok (items, left))
    (hall : items.all closesQuotes (fun tag _ => closesQuotes tag) = true) :
    ∃ source, cs = source ++ left ∧ IsBalanced (items.strays - 1) source := by
  have hclose : IsBalanced (-1) [']'] := ⟨rfl, rfl⟩
  have hcomma : IsBalanced 0 [','] := ⟨rfl, rfl⟩
  cases items with
  | close gap =>
    cases itemsAt_ok h with
    | close hcs =>
      refine ⟨_, ?_, (isBalanced_gapOf cs).append hclose⟩
      rw [← List.append_cons, ← hcs, gapOf_append_afterGap]
  | last before value after =>
    cases itemsAt_ok h with
    | @last _ after' _ hread hleft =>
      obtain ⟨source, hsource, hvalue⟩ := value.isBalanced_source (flowAt_afterGap true cs ▸ hread) hall
      have hfront := ((isBalanced_gapOf cs).append hvalue).append (isBalanced_gapOf after')
      exact ⟨_, (eq_of_afterGap hsource hleft).trans (List.append_cons _ _ _), (hfront.append hclose).of_eq (by rw [Items.strays]; omega)⟩
  | more before value after rest =>
    cases itemsAt_ok h with
    | @more _ after' _ _ _ hread hleft hrest =>
      obtain ⟨hall, hallRest⟩ := Bool.and_eq_true_iff.1 hall
      obtain ⟨source, hsource, hvalue⟩ := value.isBalanced_source (flowAt_afterGap true cs ▸ hread) hall
      obtain ⟨others, hothers, hitems⟩ := rest.isBalanced_source hrest hallRest
      have hfront := ((isBalanced_gapOf cs).append hvalue).append (isBalanced_gapOf after')
      refine ⟨_, (eq_of_afterGap hsource hleft).trans ?_,
        ((hfront.append hcomma).append hitems).of_eq (by rw [Items.strays]; omega)⟩
      rw [hothers, List.append_cons, ← List.append_assoc _ others]

theorem Pairs.isBalanced_source (pairs : Pairs) {cs left : List Char} (h : pairsAt cs = .ok (pairs, left))
    (hall : pairs.all closesQuotes (fun tag _ => closesQuotes tag) = true) :
    ∃ source, cs = source ++ left ∧ IsBalanced (pairs.strays - 1) source := by
  have hclose : IsBalanced (-1) ['\x7d'] := ⟨rfl, rfl⟩
  have hcomma : IsBalanced 0 [','] := ⟨rfl, rfl⟩
  cases pairs with
  | close gap =>
    cases pairsAt_ok h with
    | close hcs =>
      refine ⟨_, ?_, (isBalanced_gapOf cs).append hclose⟩
      rw [← List.append_cons, ← hcs, gapOf_append_afterGap]
  | last before key gap slot =>
    cases pairsAt_ok h with
    | @last _ afterKey _ _ hkey hslot =>
      obtain ⟨hcloses, hall⟩ := Bool.and_eq_true_iff.1 hall
      obtain ⟨source, hsource, hvalue⟩ := slot.isBalanced_source hslot hall
      have hfront := ((isBalanced_gapOf cs).append (isBalanced_of_closesQuotes hcloses)).append (isBalanced_gapOf afterKey)
      exact ⟨_, (eq_of_keyAt hkey hsource).trans (List.append_cons _ _ _),
        ((hfront.append hvalue).append hclose).of_eq (by rw [Pairs.strays]; omega)⟩
  | more before key gap slot rest =>
    cases pairsAt_ok h with
    | @more _ afterKey _ _ _ _ hkey hslot hrest =>
      obtain ⟨hentry, hallRest⟩ := Bool.and_eq_true_iff.1 hall
      obtain ⟨hcloses, hall⟩ := Bool.and_eq_true_iff.1 hentry
      obtain ⟨source, hsource, hvalue⟩ := slot.isBalanced_source hslot hall
      obtain ⟨others, hothers, hpairs⟩ := rest.isBalanced_source hrest hallRest
      have hfront := ((isBalanced_gapOf cs).append (isBalanced_of_closesQuotes hcloses)).append (isBalanced_gapOf afterKey)
      refine ⟨_, (eq_of_keyAt hkey hsource).trans ?_,
        (((hfront.append hvalue).append hcomma).append hpairs).of_eq (by rw [Pairs.strays]; omega)⟩
      rw [hothers, List.append_cons, ← List.append_assoc _ others]

theorem Slot.isBalanced_source (slot : Slot) {cs left : List Char} (h : slotAt cs = .ok (slot, left))
    (hall : slot.all closesQuotes (fun tag _ => closesQuotes tag) = true) :
    ∃ source, cs = source ++ left ∧ IsBalanced slot.strays source := by
  have hcolon : IsBalanced 0 [':'] := ⟨rfl, rfl⟩
  cases slot with
  | bare =>
    cases slotAt_ok h with
    | bare => exact ⟨[], rfl, ⟨rfl, rfl⟩⟩
  | empty gap =>
    cases slotAt_ok h with
    | @empty rest _ _ hleft =>
      refine ⟨_, ?_, hcolon.append (isBalanced_gapOf rest)⟩
      rw [← hleft, List.append_assoc, gapOf_append_afterGap]
      rfl
  | filled before value final =>
    cases slotAt_ok h with
    | @filled rest after _ _ _ hread hleft =>
      obtain ⟨source, hsource, hvalue⟩ := value.isBalanced_source (flowAt_afterGap true rest ▸ hread) hall
      refine ⟨_, ?_, (((hcolon.append (isBalanced_gapOf rest)).append hvalue).append (isBalanced_gapOf after)).of_eq
        (by rw [Slot.strays]; omega)⟩
      exact congrArg (':' :: ·) (eq_of_afterGap hsource hleft)

end

def opensBracket : List Char → Bool
  | [] => false
  | c :: _ => c == '[' || c == '\x7b'

theorem opensFlow_of_opensBracket {cs : List Char} (h : opensBracket cs = true) : opensFlow cs = true := by
  cases cs with
  | nil => contradiction
  | cons c cs => simp_all [opensBracket, opensFlow, or_assoc]

section Complete

variable {cs left : List Char} {value : Flow} (hopens : opensBracket cs = true)

include hopens

/-- A collection is read alike on a line and inside another. -/
theorem flowAt_of_opensBracket (inFlow : Bool) : flowAt inFlow cs = flowAt true cs := by
  cases cs with
  | nil => contradiction
  | cons c cs =>
    rw [opensBracket, Bool.or_eq_true, beq_iff_eq, beq_iff_eq] at hopens
    obtain rfl | rfl := hopens
    · rw [flowAt_bracket, flowAt_bracket]
    · rw [flowAt_brace, flowAt_brace]

/-- What is read at a bracket is a collection, written out as it stands there. -/
theorem fragment_of_opensBracket (hread : flowAt false cs = .ok (value, left)) : ∃ text, value.fragment = .structured text := by
  cases cs with
  | nil => contradiction
  | cons c cs =>
    rw [opensBracket, Bool.or_eq_true, beq_iff_eq, beq_iff_eq] at hopens
    obtain rfl | rfl := hopens
    · rw [flowAt_bracket] at hread
      obtain ⟨items, -, rfl⟩ := mapRead_ok hread
      exact ⟨_, rfl⟩
    · rw [flowAt_brace] at hread
      obtain ⟨pairs, -, rfl⟩ := mapRead_ok hread
      exact ⟨_, rfl⟩

theorem bracketBalance_eq_strays (hread : flowAt false cs = .ok (value, [])) (hquotes : value.quotesClosed = true) :
    bracketBalance cs = value.strays := by
  rw [flowAt_of_opensBracket hopens] at hread
  obtain ⟨source, hsource, hbalanced⟩ := value.isBalanced_source hread hquotes
  rw [afterGap_of_opensFlow (opensFlow_of_opensBracket hopens), List.append_nil] at hsource
  rw [hsource]
  exact hbalanced.balance

/-- A complete collection that does not count as open is put out on its line, and the lines behind it stay. -/
theorem step_of_opensBracket (options : Options) {line : List Char} (hline : (Layout.of line).value = cs)
    (hread : flowAt false cs = .ok (value, left)) (hbalance : bracketBalance cs ≤ 0) :
    ∃ out, ∀ number queue, step options ⟨number, line⟩ queue = .ok ⟨[out], queue⟩ := by
  have hflow : opensFlow (Layout.of line).value = true := hline ▸ opensFlow_of_opensBracket hopens
  have hform : Form.of options (Layout.of line) = .other :=
    Form.of_eq_other (isBlockIndicator_of_opensFlow hflow) (.inr (splitLongForm_of_opensFlow hflow))
      fun _ => hline ▸ hbalance
  obtain ⟨text, hfragment⟩ := fragment_of_opensBracket hopens hread
  by_cases hmark : hasMark cs = true
  · have hexpand : expandValue (Layout.of line).value = .ok (.inline (text ++ left)) := by
      rw [hline]
      exact expandValue_of_flowAt (by simpa [hasMark] using hmark) (opensFlow_of_opensBracket hopens) hread hfragment
    by_cases helongate : (options.isEnabled .elongate || !hasMark (Layout.of line).value) = true
    · exact ⟨_, fun number queue => (step_of_other hform hexpand number queue).trans (if_pos helongate)⟩
    · exact ⟨_, fun number queue => (step_of_other hform hexpand number queue).trans (if_neg helongate)⟩
  · have hexpand : expandValue (Layout.of line).value = .ok .unchanged := by
      rw [expandValue_eq, hline, if_neg (by simp [hmark])]
    exact ⟨_, step_of_other hform hexpand⟩

/-- A collection that is read to the end of its line leaves as many brackets open as the text of its plain scalars, keys
and foreign tags does, if none of them leaves a quote open. It counts as open if these are any; then it is a fault
without lines to come that close it. Else it keeps to its line. -/
theorem bracketBalance_complete (hread : flowAt false cs = .ok (value, [])) (hquotes : value.quotesClosed = true) :
    bracketBalance cs = value.strays ∧
      ∀ (options : Options) (line : List Char), (Layout.of line).value = cs →
        (Form.of options (Layout.of line) = .openFlow ↔ 0 < value.strays) ∧
          (value.strays ≤ 0 → ∃ out, ∀ number queue, step options ⟨number, line⟩ queue = .ok ⟨[out], queue⟩) ∧
            (0 < value.strays → options.isEnabled .multiline = true → '!' ∈ cs →
              ∀ number, step options ⟨number, line⟩ [] = .error ⟨number, .neverClosed⟩) := by
  have hbalance := bracketBalance_eq_strays hopens hread hquotes
  refine ⟨hbalance, fun options line hline => ?_⟩
  have hflow : opensFlow (Layout.of line).value = true := hline ▸ opensFlow_of_opensBracket hopens
  have hform (hpositive : 0 < value.strays) : Form.of options (Layout.of line) = .openFlow :=
    Form.of_eq_openFlow hflow (by rwa [hline, hbalance])
  refine ⟨⟨fun hopen => ?_, hform⟩, fun hclosed => ?_, fun hpositive hmultiline hmark number => ?_⟩
  · by_contra hclosed
    have hother : Form.of options (Layout.of line) = .other :=
      Form.of_eq_other (isBlockIndicator_of_opensFlow hflow) (.inr (splitLongForm_of_opensFlow hflow))
        fun _ => by rw [hline, hbalance]; exact Int.not_lt.1 hclosed
    rw [hopen] at hother
    contradiction
  · exact step_of_opensBracket hopens options hline hread (hbalance ▸ hclosed)
  · have hline' : hasMark (Layout.of line).value = true := by simpa [hline, hasMark] using hmark
    have hstep := @step_unjoined options ⟨number, line⟩ [] (hform hpositive) hmultiline rfl
    exact hstep.trans (if_pos hline')

end Complete

/-- A bracket in a key counts, and one in quotes does not. -/
theorem bracketBalance_complete_key :
    let line := "A: \x7ba[0: [!Ref b, \"]\"]\x7d".toList
    bracketBalance (Layout.of line).value = 1 ∧ Form.of .standard (Layout.of line) = .openFlow ∧
      step .standard ⟨1, line⟩ [] = .error ⟨1, .neverClosed⟩ := by
  intro line
  have hread : flowAt false "\x7ba[0: [!Ref b, \"]\"]\x7d".toList =
      .ok (.mapping (.last [] "a[0".toList [] (.filled " ".toList (.sequence (.more [] (.call .ref (.plain "b".toList)) []
        (.last " ".toList (.quoted "]".toList) []))) [])), []) := by with_unfolding_all rfl
  have hline : (Layout.of line).value = "\x7ba[0: [!Ref b, \"]\"]\x7d".toList := by decide +kernel
  obtain ⟨hbalance, hlines⟩ := bracketBalance_complete rfl hread rfl
  obtain ⟨hform, -, hstep⟩ := hlines .standard line hline
  rw [hline]
  exact ⟨hbalance, hform.2 (by decide), hstep (by decide) rfl (by decide) 1⟩

/-- Collections that are complete on their line and count as open: a quote in a plain scalar opens a string to the count,
and a bracket there takes the line behind it. -/
theorem bracketBalance_stray_quote :
    ((flowAt false "[5\" x, !Ref b]".toList).map Prod.snd = .ok [] ∧ bracketBalance "[5\" x, !Ref b]".toList = 1 ∧
        normalize .standard "A: [5\" x, !Ref b]\nB: 1" = .error ⟨1, .neverClosed⟩) ∧
      (flowAt false "[a[b, !Ref c]".toList).map Prod.snd = .ok [] ∧ bracketBalance "[a[b, !Ref c]".toList = 1 ∧
        normalize .standard "A: [a[b, !Ref c]\nB: x]" = .ok "A: [a[b, \x7b \"Ref\" : \"c\" \x7d] B: x]" :=
  ⟨⟨by decide +kernel, by decide, by decide +kernel⟩, by decide +kernel, by decide, by decide +kernel⟩

end CloudTemplate.Shorthand
