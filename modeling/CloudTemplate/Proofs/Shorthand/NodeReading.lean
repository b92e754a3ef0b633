import CloudTemplate.Proofs.Shorthand.Node
import CloudTemplate.Proofs.Shorthand.Reading
import CloudTemplate.Proofs.Text.Trim
/-! Reading a value from its text with tags: each part is read to its own end, whatever follows, and
written out becomes the part of the other text that it stands for. -/
namespace CloudTemplate.Shorthand

inductive Ends : Bool → List Char → Prop
  | line : Ends false []
  | inFlow (spacing : Spacing) {c : Char} (cs : List Char) (h : endsPlain c = true) :
      Ends true (spacing.text ++ c :: cs)

theorem Spacing.isBlank (spacing : Spacing) : ∀ c ∈ spacing.text, Text.isBlank c = true :=
  fun c h => Text.isBlank_of_isGap (spacing.isGap c h)

theorem not_isGap_of_endsPlain {c : Char} (h : endsPlain c = true) : Text.isGap c = false := by
  simp only [endsPlain, Bool.or_eq_true, beq_iff_eq] at h
  obtain (rfl | rfl) | rfl := h <;> rfl

theorem not_endsPlain_of_isGap {c : Char} (h : Text.isGap c = true) : endsPlain c = false := by
  refine Bool.eq_false_iff.2 fun hends => ?_
  rw [not_isGap_of_endsPlain hends] at h
  contradiction

theorem Scalar.text_eq_cons (scalar : Scalar) :
    ∃ c cs, scalar.text = c :: cs ∧ Text.isBlank c = false ∧ c ≠ '!' ∧ c ≠ '[' ∧ c ≠ '\x7b' ∧ c ≠ '"' := by
  have hstarts := scalar.starts
  cases hcs : scalar.text with
  | nil => simp [hcs, startsScalar] at hstarts
  | cons c cs =>
    simp only [hcs, startsScalar, List.contains_cons, List.contains_nil, Bool.or_false, Bool.and_eq_true,
      Bool.not_eq_true', Bool.or_eq_false_iff, beq_eq_false_iff_ne] at hstarts
    exact ⟨c, cs, rfl, hstarts.1, hstarts.2⟩

theorem plainText_append (scalar : Scalar) {inFlow : Bool} {rest : List Char} (h : Ends inFlow rest) :
    plainText inFlow (scalar.text ++ rest) = scalar.text := by
  cases h with
  | line => simp [plainText, scalar.ends]
  | inFlow spacing cs hends =>
    have hinside : ∀ c ∈ scalar.text ++ spacing.text, (!endsPlain c) = true := by
      intro c hc
      obtain hc | hc := List.mem_append.1 hc
      · simp [scalar.unbroken c hc]
      · simp [not_endsPlain_of_isGap (spacing.isGap c hc)]
    rw [plainText, if_pos rfl, ← List.append_assoc, List.takeWhile_append_of_pos hinside,
      List.takeWhile_cons_of_neg (by simp [hends]), List.append_nil,
      Text.trimEnd_append_blank _ spacing.isBlank, scalar.ends]

theorem flowAt_scalar (scalar : Scalar) {inFlow : Bool} {rest : List Char} (h : Ends inFlow rest) :
    flowAt inFlow (scalar.text ++ rest) = .ok (.plain scalar.text, rest) := by
  have hplain := plainText_append scalar h
  obtain ⟨c, cs, hcs, hblank, hmark, hbracket, hbrace, hquote⟩ := scalar.text_eq_cons
  have hgap : Text.isGap c = false := by
    refine Bool.eq_false_iff.2 fun hgap => ?_
    rw [Text.isBlank_of_isGap hgap] at hblank
    contradiction
  rw [hcs, List.cons_append] at hplain ⊢
  rw [flowAt_eq, afterGap_cons hgap]
  simp only [hmark, hbracket, hbrace, hquote, if_false, hplain]
  simp

theorem closeQuote_append (body : QuotedText) (rest : List Char) :
    closeQuote (body.text ++ '"' :: rest) = some (body.text, rest) := by
  obtain ⟨text, hclosed⟩ := body
  dsimp only
  induction text using escapeInduction with
  | nil => rfl
  | last => contradiction
  | quote cs => contradiction
  | pair c cs ih => simp [closeQuote, ih hclosed]
  | plain c cs hquote hbackslash ih =>
    rw [staysQuoted_cons hquote hbackslash] at hclosed
    rw [List.cons_append, closeQuote_cons hquote hbackslash, ih hclosed]
    rfl

theorem flowAt_quoted (body : QuotedText) (inFlow : Bool) (rest : List Char) :
    flowAt inFlow (inQuotes body.text ++ rest) = .ok (.quoted body.text, rest) := by
  have htext : inQuotes body.text ++ rest = '"' :: (body.text ++ '"' :: rest) := by simp [inQuotes]
  rw [htext, flowAt_quote, closeQuote_append]

/-- A key is taken up to what ends it. Its own last colon must not end it before. -/
theorem plainKeyRun_append {key tail : List Char} (h : staysKey key = true) (htail : plainKeyRun tail = [])
    (hlast : key.getLast? = some ':' → tail.head? = some ':') : plainKeyRun (key ++ tail) = key := by
  fun_induction staysKey key with
  | case1 => exact htail
  | case2 => contradiction
  | case3 c cs hcolon ih =>
    simp only [Bool.and_eq_true, bne_iff_ne] at h
    obtain ⟨⟨hcomma, hbrace⟩, hcs⟩ := h
    have hkeep : plainKeyRun (c :: (cs ++ tail)) = c :: plainKeyRun (cs ++ tail) := by
      by_cases hc : c = ':'
      · subst hc
        cases cs with
        | nil =>
          obtain ⟨ds, rfl⟩ := List.head?_eq_some_iff.1 (hlast rfl)
          rw [List.nil_append, plainKeyRun.eq_def]
          simp
        | cons d ds =>
          have hd : d ≠ ',' ∧ d ≠ '\x7d' := by
            rw [staysKey.eq_def] at hcs
            split at hcs <;> simp_all
          have hspace : d ≠ ' ' := by
            intro heq
            subst heq
            exact hcolon ds rfl rfl
          rw [List.cons_append, plainKeyRun.eq_def]
          simp [hspace, hd]
      · rw [plainKeyRun.eq_def]
        simp [hc, hcomma, hbrace]
    have hrest : plainKeyRun (cs ++ tail) = cs := by
      refine ih hcs fun hcs' => hlast ?_
      cases cs with
      | nil => contradiction
      | cons d ds => exact hcs'
    rw [List.cons_append, hkeep, hrest]

theorem PlainKey.keyAt_text (key : PlainKey) (rest : List Char) :
    keyAt (key.text ++ key.spacing.text ++ ':' :: ' ' :: rest) =
      .ok (key.text, key.spacing.text ++ ':' :: ' ' :: rest) := by
  have hkey : plainKey (key.text ++ key.spacing.text ++ ':' :: ' ' :: rest) = key.text := by
    rw [plainKey, plainKeyRun_append key.unbroken (by simp [plainKeyRun]) fun _ => rfl,
      Text.trimEnd_append_blank _ key.spacing.isBlank, key.ends]
  have hquote : (key.text ++ key.spacing.text ++ ':' :: ' ' :: rest).head? ≠ some '"' := by
    have hstarts := key.starts
    cases hcs : key.text with
    | nil => exact absurd hcs key.nonempty
    | cons c cs =>
      intro heq
      simp_all
  rw [keyAt_plain hquote, hkey]
  simp

theorem splitPoint_eq (cs : List Char) :
    splitPoint cs = (cs.idxOf? '.').map fun i => (cs.take i, cs.drop (i + 1)) := by
  induction cs with
  | nil => rfl
  | cons c cs ih =>
    by_cases hc : c = '.'
    · simp [splitPoint, List.idxOf?_cons, hc]
    · have hrest : splitPoint (c :: cs) = (splitPoint cs).map fun split => (c :: split.1, split.2) := by
        by_cases hcs : '.' ∈ cs <;> simp [splitPoint, hc, hcs, Ne.symm hc]
      rw [hrest, ih, List.idxOf?_cons, if_neg (by simp [hc]), Option.map_map, Option.map_map]
      rfl

theorem attributeList_eq (cs : List Char) : attributeList cs = attributeArgument cs := by
  rw [attributeList, attributeArgument, splitPoint_eq]
  cases cs.idxOf? '.' <;> rfl

def Node.fragment : Node → Fragment
  | .plain scalar => .plain scalar.text
  | .quoted body => .quoted body.text
  | value => .structured value.expanded

theorem Node.text_fragment (value : Node) : value.fragment.text = value.expanded := by
  cases value <;> rfl

theorem longName_eq_getAtt_iff (f : Intrinsic) : f.longName = Intrinsic.getAtt.longName ↔ f = .getAtt := by
  cases f <;> decide

theorem Scalar.trim_text (scalar : Scalar) : Text.trim scalar.text = scalar.text := by
  obtain ⟨c, cs, hcs, hblank, -⟩ := scalar.text_eq_cons
  have hstart : Text.trimStart scalar.text = scalar.text := by
    rw [hcs, Text.trimStart, List.dropWhile_cons_of_neg (by simp [hblank])]
  rw [Text.trim, hstart, scalar.ends]

theorem argumentText_fragment (f : Intrinsic) (argument : Node) :
    argumentText f.longName argument.fragment = argument.writtenArgument f argument.expanded := by
  by_cases hf : f = .getAtt
  · subst hf
    cases argument <;>
      simp [Node.fragment, argumentText, Node.writtenArgument, attributeList_eq, Scalar.trim_text]
  · have hname : ¬ f.longName = Intrinsic.getAtt.longName := fun h => hf ((longName_eq_getAtt_iff f).1 h)
    cases argument <;>
      simp [Node.fragment, argumentText, Node.writtenArgument, hf, hname, Scalar.trim_text, Node.expanded]

theorem applyName_fragment (f : Intrinsic) (spacing : Spacing) (apart : spacing.text ≠ []) (argument : Node) :
    applyName f.longName argument.fragment = (Node.call f spacing apart argument).fragment := by
  have htext : callText f.longName argument.fragment = (Node.call f spacing apart argument).expanded := by
    rw [callText, argumentText_fragment, Node.expanded]
  cases argument <;> exact congrArg Fragment.structured htext

theorem isGap_of_isAlphanum {c : Char} (h : c.isAlphanum = true) : Text.isGap c = false := by
  refine Bool.eq_false_iff.2 fun hgap => ?_
  obtain hc | hc := Bool.or_eq_true_iff.1 hgap <;> rw [beq_iff_eq.1 hc] at h <;> contradiction

theorem not_isAlphanum_of_isGap {c : Char} (h : Text.isGap c = true) : c.isAlphanum = false :=
  Bool.eq_false_iff.2 fun halpha => by simp [isGap_of_isAlphanum halpha] at h

/-- What holds of gaps and of the first character behind them holds of the first character of both. -/
theorem Spacing.forall_head (spacing : Spacing) {p : Char → Prop} (hgap : ∀ c, Text.isGap c = true → p c)
    {cs : List Char} (h : ∀ c ∈ cs.head?, p c) : ∀ c ∈ (spacing.text ++ cs).head?, p c := by
  cases hspacing : spacing.text with
  | nil => exact h
  | cons d ds =>
    intro c hc
    obtain rfl : d = c := Option.some.inj hc
    exact hgap d (spacing.isGap d (by simp [hspacing]))

theorem isAlphanum_head_append {spacing : Spacing} (apart : spacing.text ≠ []) {rest : List Char} :
    ∀ c ∈ (spacing.text ++ rest).head?, c.isAlphanum = false := by
  rw [List.head?_append_of_ne_nil _ apart]
  exact fun c hc => not_isAlphanum_of_isGap (spacing.isGap c (List.mem_of_mem_head? hc))

/-- What a name of letters and digits stands for, and what stands behind it and the gap after it, decides how the reading
of a tag goes on. -/
theorem tagAt_alphanum {name rest : List Char} (hname : ∀ c ∈ name, c.isAlphanum = true)
    (hrest : ∀ c ∈ rest.head?, c.isAlphanum = false) (hmark : (name ++ rest).head? ≠ some '!') (inFlow : Bool) :
    tagAt inFlow (name ++ rest) =
      match Intrinsic.ofTag? (String.ofList name) with
      | none => .error (.unknownTag (String.ofList name))
      | some f =>
        if lacksArgument inFlow (afterGap rest) then
          if inFlow then .error (.noArgument (String.ofList name)) else .ok (.opened f none, afterGap rest)
        else if !inFlow && isBlockIndicator (afterGap rest) then .ok (.opened f (some (afterGap rest)), [])
        else mapRead (.call f) (flowAt inFlow (afterGap rest)) := by
  have hends : rest.takeWhile Char.isAlphanum = [] ∧ rest.dropWhile Char.isAlphanum = rest := by
    cases rest with
    | nil => exact ⟨rfl, rfl⟩
    | cons c cs => simp [hrest c rfl]
  have htake : (name ++ rest).takeWhile Char.isAlphanum = name := by
    rw [List.takeWhile_append_of_pos hname, hends.1, List.append_nil]
  have hafter : afterName (name ++ rest) = afterGap rest := by
    rw [afterName, List.dropWhile_append_of_pos hname, hends.2]
  rw [tagAt_eq, if_neg hmark, htake]
  cases Intrinsic.ofTag? (String.ofList name) with
  | none => rfl
  | some f =>
    dsimp only
    rw [hafter]

/-- A tag of the catalogue, with no letter or digit right behind its name. -/
theorem tagAt_apart (f : Intrinsic) (inFlow : Bool) (spacing : Spacing) {rest : List Char}
    (hapart : ∀ c ∈ (spacing.text ++ rest).head?, c.isAlphanum = false) (hgap : afterGap rest = rest) :
    tagAt inFlow (f.tag.toList ++ (spacing.text ++ rest)) =
      if lacksArgument inFlow rest then
        if inFlow then .error (.noArgument f.tag) else .ok (.opened f none, rest)
      else if !inFlow && isBlockIndicator rest then .ok (.opened f (some rest), [])
      else mapRead (.call f) (flowAt inFlow rest) := by
  have hmark : (f.tag.toList ++ (spacing.text ++ rest)).head? ≠ some '!' := by
    cases f <;> simp [Intrinsic.tag]
  rw [tagAt_alphanum (fun c hc => isAlphanum_of_mem_tag hc) hapart hmark, String.ofList_toList, ofTag?_tag,
    afterGap_append spacing.isGap, hgap]

/-- A gap keeps a name apart from what stands behind it. -/
theorem tagAt_name (f : Intrinsic) (inFlow : Bool) {spacing : Spacing} (apart : spacing.text ≠ [])
    {rest : List Char} (hgap : afterGap rest = rest) :
    tagAt inFlow (f.tag.toList ++ (spacing.text ++ rest)) =
      if lacksArgument inFlow rest then
        if inFlow then .error (.noArgument f.tag) else .ok (.opened f none, rest)
      else if !inFlow && isBlockIndicator rest then .ok (.opened f (some rest), [])
      else mapRead (.call f) (flowAt inFlow rest) := by
  exact tagAt_apart f inFlow spacing (isAlphanum_head_append apart) hgap

/-- A tag of the catalogue is read with the argument behind its gap. -/
theorem tagAt_tag (f : Intrinsic) (inFlow : Bool) {spacing : Spacing} (apart : spacing.text ≠ [])
    {rest : List Char} (hgap : afterGap rest = rest) (hargument : lacksArgument inFlow rest = false)
    (hindicator : inFlow = false → isBlockIndicator rest = false) :
    tagAt inFlow (f.tag.toList ++ (spacing.text ++ rest)) =
      mapRead (.call f) (flowAt inFlow rest) := by
  have hblock : (!inFlow && isBlockIndicator rest) = false := by
    cases inFlow
    · simp [hindicator rfl]
    · rfl
  rw [tagAt_name f inFlow apart hgap]
  simp [hargument, hblock]

theorem Node.source_eq_cons (value : Node) :
    ∃ c cs, value.source = c :: cs ∧ Text.isGap c = false ∧ endsPlain c = false := by
  cases value with
  | plain scalar =>
    obtain ⟨c, cs, hcs, hblank, -⟩ := scalar.text_eq_cons
    refine ⟨c, cs, hcs, Bool.eq_false_iff.2 fun hgap => ?_, scalar.unbroken c (by simp [hcs])⟩
    rw [Text.isBlank_of_isGap hgap] at hblank
    contradiction
  | quoted body => exact ⟨'"', body.text ++ ['"'], rfl, rfl, rfl⟩
  | sequence items => exact ⟨'[', items.source, rfl, rfl, rfl⟩
  | mapping pairs => exact ⟨'\x7b', pairs.source, rfl, rfl, rfl⟩
  | call f spacing apart argument =>
    exact ⟨'!', f.tag.toList ++ spacing.text ++ argument.source, rfl, rfl, rfl⟩

theorem Node.isBlockIndicator_source (value : Node) : isBlockIndicator value.source = false := by
  cases value with
  | plain scalar => exact scalar.announcesNothing
  | _ => rfl

theorem Node.lacksArgument_source (value : Node) (inFlow : Bool) (rest : List Char) :
    lacksArgument inFlow (value.source ++ rest) = false := by
  obtain ⟨c, cs, hcs, -, hends⟩ := value.source_eq_cons
  simp [hcs, lacksArgument, hends]

theorem Node.afterGap_source (value : Node) (rest : List Char) :
    afterGap (value.source ++ rest) = value.source ++ rest := by
  obtain ⟨c, cs, hcs, hgap, -⟩ := value.source_eq_cons
  rw [hcs, List.cons_append, afterGap_cons hgap]

theorem gapOf_spacing (spacing : Spacing) (value : Node) (rest : List Char) :
    gapOf (spacing.text ++ (value.source ++ rest)) = spacing.text := by
  obtain ⟨c, cs, hcs, hgap, -⟩ := value.source_eq_cons
  rw [gapOf_append spacing.isGap, hcs, List.cons_append, gapOf_cons hgap, List.append_nil]

namespace FlowKey

theorem isGap_before (key : FlowKey) : ∀ c ∈ key.before, Text.isGap c = true := by
  cases key with
  | plain key _ => exact key.spacing.isGap
  | quoted _ before _ => exact before.isGap

theorem isGap_after (key : FlowKey) : ∀ c ∈ key.after, Text.isGap c = true := by
  cases key with
  | plain _ after =>
    intro c hc
    obtain rfl | hc := List.mem_cons.1 hc
    · rfl
    · exact after.isGap c hc
  | quoted _ _ after => exact after.isGap

theorem text_eq_cons (key : FlowKey) :
    ∃ c cs, key.text = c :: cs ∧ Text.isGap c = false ∧ c ≠ '\x7d' := by
  cases key with
  | plain key after =>
    have hstarts := key.starts
    have hunbroken := key.unbroken
    cases hcs : key.text with
    | nil => exact absurd hcs key.nonempty
    | cons c cs =>
      refine ⟨c, _, by simp only [text, name, hcs]; rfl, ?_, ?_⟩
      · refine Bool.eq_false_iff.2 fun hgap => ?_
        simp [hcs, Text.isBlank_of_isGap hgap] at hstarts
      · intro heq
        subst heq
        simp [hcs, staysKey] at hunbroken
  | quoted key before after => exact ⟨'"', _, rfl, rfl, by decide⟩

/-- A key is read up to the spacing before its colon. -/
theorem keyAt_text (key : FlowKey) (rest : List Char) :
    keyAt (key.text ++ rest) = .ok (key.name, key.before ++ ':' :: (key.after ++ rest)) := by
  cases key with
  | plain key after => simpa [text, name, before, FlowKey.after] using key.keyAt_text (after.text ++ rest)
  | quoted key before after =>
    have htext : (quoted key before after).text ++ rest =
        '"' :: (key.text ++ '"' :: (before.text ++ ':' :: (after.text ++ rest))) := by
      simp [text, name, FlowKey.before, FlowKey.after, inQuotes]
    rw [htext, keyAt_quote, closeQuote_append]
    simp [name, FlowKey.before, FlowKey.after, inQuotes]

end FlowKey

theorem slotAt_source (key : FlowKey) {value : Node} {flow : Flow} {rest : List Char}
    (h : flowAt true (value.source ++ rest) = .ok (flow, rest)) :
    slotAt (afterGap (key.before ++ ':' :: (key.after ++ (value.source ++ rest)))) =
      .ok (.filled key.after flow (gapOf rest), afterGap rest) := by
  have hends : endsSlot (value.source ++ rest) = false := by
    obtain ⟨c, cs, hcs, -, hends⟩ := value.source_eq_cons
    simp only [endsPlain, Bool.or_eq_false_iff] at hends
    simp [hcs, endsSlot, hends]
  have hgap : gapOf (key.after ++ (value.source ++ rest)) = key.after := by
    obtain ⟨c, cs, hcs, hgap, -⟩ := value.source_eq_cons
    rw [gapOf_append key.isGap_after, hcs, List.cons_append, gapOf_cons hgap, List.append_nil]
  rw [afterGap_append_cons key.isGap_before rfl, slotAt_colon,
    afterGap_append key.isGap_after, value.afterGap_source, hends, hgap, h]
  rfl

/-- An item is read with the gaps around it, and the character behind it says how its sequence goes on. -/
theorem itemsAt_source_append (before : Spacing) {value : Node} {after : Spacing} {flow : Flow} {d : Char}
    {rest : List Char}
    (h : flowAt true (value.source ++ (after.text ++ d :: rest)) = .ok (flow, after.text ++ d :: rest))
    (hd : Text.isGap d = false) :
    itemsAt (before.text ++ (value.source ++ (after.text ++ d :: rest))) =
      if d = ',' then mapRead (.more before.text flow after.text) (itemsAt rest)
      else if d = ']' then .ok (.last before.text flow after.text, rest)
      else .error (.unexpectedInSequence d) := by
  have hafter := afterGap_append_cons after.isGap hd rest
  have hgap := gapOf_append_cons after.isGap hd rest
  have hbefore := gapOf_spacing before value (after.text ++ d :: rest)
  obtain ⟨c, cs, hcs, hc, hends⟩ := value.source_eq_cons
  have hclose : c ≠ ']' := by rintro rfl; contradiction
  rw [itemsAt_eq, hbefore, afterGap_append before.isGap]
  rw [hcs, List.cons_append] at h ⊢
  rw [afterGap_cons hc]
  simp only [hclose, if_false, h, hafter, hgap]

theorem pairsAt_source_append (before : Spacing) (key : FlowKey) {value : Node} {after : Spacing} {flow : Flow}
    {d : Char} {rest : List Char}
    (h : flowAt true (value.source ++ (after.text ++ d :: rest)) = .ok (flow, after.text ++ d :: rest))
    (hd : Text.isGap d = false) :
    pairsAt (before.text ++ (key.text ++ (value.source ++ (after.text ++ d :: rest)))) =
      if d = ',' then
        mapRead (.more before.text key.name key.before (.filled key.after flow after.text)) (pairsAt rest)
      else if d = '\x7d' then
        .ok (.last before.text key.name key.before (.filled key.after flow after.text), rest)
      else .error (.unexpectedInMapping d) := by
  have hafter := afterGap_append_cons after.isGap hd rest
  have hgap := gapOf_append_cons after.isGap hd rest
  have hkey := key.keyAt_text (value.source ++ (after.text ++ d :: rest))
  have hslot := slotAt_source key h
  have hkeyGap : gapOf (key.before ++ ':' :: (key.after ++ (value.source ++ (after.text ++ d :: rest)))) =
      key.before := gapOf_append_cons key.isGap_before rfl _
  obtain ⟨c, cs, hcs, hc, hclose⟩ := key.text_eq_cons
  rw [pairsAt_eq, gapOf_append before.isGap, afterGap_append before.isGap]
  rw [hcs, List.cons_append] at hkey ⊢
  rw [afterGap_cons hc, gapOf_cons hc, List.append_nil]
  simp only [hclose, if_false, hkey, hslot, hafter, hgap, hkeyGap]

mutual

/-- A value is read to its end, and written out becomes its other text. -/
theorem Node.flowAt_source (value : Node) {inFlow : Bool} {rest : List Char} (h : Ends inFlow rest) :
    ∃ flow, flowAt inFlow (value.source ++ rest) = .ok (flow, rest) ∧ flow.fragment = value.fragment := by
  match value with
  | .plain scalar => exact ⟨_, flowAt_scalar scalar h, rfl⟩
  | .quoted body => exact ⟨_, flowAt_quoted body inFlow rest, rfl⟩
  | .sequence items =>
    obtain ⟨read, hread, htext⟩ := items.itemsAt_source rest
    refine ⟨.sequence read, ?_, ?_⟩
    · rw [Node.source, List.cons_append, flowAt_bracket, hread]
      rfl
    · rw [Flow.fragment, htext]
      rfl
  | .mapping pairs =>
    obtain ⟨read, hread, htext⟩ := pairs.pairsAt_source rest
    refine ⟨.mapping read, ?_, ?_⟩
    · rw [Node.source, List.cons_append, flowAt_brace, hread]
      rfl
    · rw [Flow.fragment, htext]
      rfl
  | .call f spacing apart argument =>
    obtain ⟨read, hread, htext⟩ := argument.flowAt_source h
    refine ⟨.call f read, ?_, ?_⟩
    · have hindicator : inFlow = false → isBlockIndicator (argument.source ++ rest) = false := by
        intro heq
        subst heq
        cases h
        rw [List.append_nil, argument.isBlockIndicator_source]
      simp only [Node.source, List.cons_append, List.append_assoc]
      rw [flowAt_mark, tagAt_tag f inFlow apart (argument.afterGap_source rest)
        (argument.lacksArgument_source inFlow rest) hindicator, hread]
      rfl
    · rw [Flow.fragment, htext, applyName_fragment f spacing apart]

theorem NodeItems.itemsAt_source (items : NodeItems) (rest : List Char) :
    ∃ read, itemsAt (items.source ++ rest) = .ok (read, rest) ∧ read.text = items.expanded := by
  match items with
  | .close spacing =>
    refine ⟨.close spacing.text, ?_, rfl⟩
    rw [NodeItems.source, List.append_assoc, List.singleton_append, itemsAt_close spacing.isGap]
  | .last before value after =>
    obtain ⟨flow, hflow, hfragment⟩ :=
      value.flowAt_source (.inFlow after rest (show endsPlain ']' = true from rfl))
    refine ⟨.last before.text flow after.text, ?_, ?_⟩
    · simp only [NodeItems.source, List.append_assoc, List.singleton_append]
      rw [itemsAt_source_append before hflow rfl]
      rfl
    · rw [Items.text, hfragment, value.text_fragment]
      rfl
  | .more before value after others =>
    obtain ⟨flow, hflow, hfragment⟩ :=
      value.flowAt_source (.inFlow after (others.source ++ rest) (show endsPlain ',' = true from rfl))
    obtain ⟨read, hread, htext⟩ := others.itemsAt_source rest
    refine ⟨.more before.text flow after.text read, ?_, ?_⟩
    · simp only [NodeItems.source, List.append_assoc, List.cons_append]
      rw [itemsAt_source_append before hflow rfl, hread]
      rfl
    · rw [Items.text, hfragment, value.text_fragment, htext]
      rfl

theorem NodePairs.pairsAt_source (pairs : NodePairs) (rest : List Char) :
    ∃ read, pairsAt (pairs.source ++ rest) = .ok (read, rest) ∧ read.text = pairs.expanded := by
  match pairs with
  | .close spacing =>
    refine ⟨.close spacing.text, ?_, rfl⟩
    rw [NodePairs.source, List.append_assoc, List.singleton_append, pairsAt_close spacing.isGap]
  | .last before key value after =>
    obtain ⟨flow, hflow, hfragment⟩ :=
      value.flowAt_source (.inFlow after rest (show endsPlain '\x7d' = true from rfl))
    refine ⟨.last before.text key.name key.before (.filled key.after flow after.text), ?_, ?_⟩
    · simp only [NodePairs.source, List.append_assoc, List.singleton_append]
      rw [pairsAt_source_append before key hflow rfl]
      rfl
    · rw [Pairs.text, Slot.text, hfragment, value.text_fragment]
      simp [NodePairs.expanded, FlowKey.text]
  | .more before key value after others =>
    obtain ⟨flow, hflow, hfragment⟩ :=
      value.flowAt_source (.inFlow after (others.source ++ rest) (show endsPlain ',' = true from rfl))
    obtain ⟨read, hread, htext⟩ := others.pairsAt_source rest
    refine ⟨.more before.text key.name key.before (.filled key.after flow after.text) read, ?_, ?_⟩
    · simp only [NodePairs.source, List.append_assoc, List.cons_append]
      rw [pairsAt_source_append before key hflow rfl, hread]
      rfl
    · rw [Pairs.text, Slot.text, hfragment, value.text_fragment, htext]
      simp [NodePairs.expanded, FlowKey.text]

end

mutual

theorem Node.mem_source (value : Node) (h : value.hasCall = true) : '!' ∈ value.source := by
  match value with
  | .sequence items => exact List.mem_cons_of_mem _ (items.mem_source h)
  | .mapping pairs => exact List.mem_cons_of_mem _ (pairs.mem_source h)
  | .call f spacing apart argument => simp [Node.source]

theorem NodeItems.mem_source (items : NodeItems) (h : items.hasCall = true) : '!' ∈ items.source := by
  match items with
  | .last before value after => simp [NodeItems.source, value.mem_source h]
  | .more before value after rest =>
    obtain hvalue | hrest := Bool.or_eq_true_iff.1 h
    · simp [NodeItems.source, value.mem_source hvalue]
    · simp [NodeItems.source, rest.mem_source hrest]

theorem NodePairs.mem_source (pairs : NodePairs) (h : pairs.hasCall = true) : '!' ∈ pairs.source := by
  match pairs with
  | .last before key value after => simp [NodePairs.source, value.mem_source h]
  | .more before key value after rest =>
    obtain hvalue | hrest := Bool.or_eq_true_iff.1 h
    · simp [NodePairs.source, value.mem_source hvalue]
    · simp [NodePairs.source, rest.mem_source hrest]

end

/-- Expanding a value writes out its calls and keeps all the rest of it. -/
theorem expandValue_source (value : Node) (hcall : value.hasCall = true)
    (hopens : opensFlow value.source = true) :
    expandValue value.source = .ok (.inline value.expanded) := by
  obtain ⟨flow, hread, hfragment⟩ := value.flowAt_source .line
  rw [List.append_nil] at hread
  have hstructured : value.fragment = .structured value.expanded := by
    cases value with
    | plain scalar => contradiction
    | quoted body => contradiction
    | _ => rfl
  simpa using expandValue_of_flowAt (value.mem_source hcall) hopens hread (hfragment.trans hstructured)

/-- A call over a sequence that holds a call of its own and an attribute look-up behind a key. -/
theorem expandValue_source_nested :
    let name : Node :=
      .call .ref oneSpace (by decide) (.plain ⟨"A".toList, by decide, by decide, by simp [endsPlain], by decide⟩)
    let arn : Node :=
      .call .getAtt oneSpace (by decide) (.plain ⟨"B.Arn".toList, by decide, by decide, by simp [endsPlain], by decide⟩)
    let pairs : NodePairs :=
      .last noSpace (.plain ⟨"k".toList, noSpace, by decide, by decide, by decide, by decide⟩ noSpace) arn noSpace
    let value : Node := .call .conditional oneSpace (by decide)
      (.sequence (.more noSpace name noSpace (.last oneSpace (.mapping pairs) noSpace)))
    value.hasCall = true ∧ opensFlow value.source = true ∧
      value.source = "!If [!Ref A, \x7bk: !GetAtt B.Arn\x7d]".toList ∧
      expandValue value.source = .ok (.inline ("\x7b \"Fn::If\" : [\x7b \"Ref\" : \"A\" \x7d, " ++
        "\x7bk: \x7b \"Fn::GetAtt\" : [\"B\", \"Arn\"] \x7d\x7d] \x7d").toList) := by
  intro name arn pairs value
  exact ⟨by decide, by decide, by decide, expandValue_source value (by decide) (by decide)⟩

end CloudTemplate.Shorthand
