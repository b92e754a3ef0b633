import CloudTemplate.Proofs.Shorthand.FlowText
import CloudTemplate.Proofs.Shorthand.TightFlow
import CloudTemplate.Proofs.Shorthand.Untagged
/-! Malformed tags. Reading a value comes to every tag in it, behind any siblings, keys, strings and other tags, and fails
at the first that names no function or has no argument. The fault is that of the line with the value. -/
namespace CloudTemplate.Shorthand

structure TagName where
  text : List Char
  isAlphanum : ∀ c ∈ text, c.isAlphanum = true

def TagName.isKnown (name : TagName) : Bool := (Intrinsic.ofTag? (String.ofList name.text)).isSome

mutual

inductive Draft where
  | word (letters : Letters)
  | quoted (body : QuotedText)
  | sequence (items : DraftItems)
  | mapping (pairs : DraftPairs)
  | tagged (name : TagName) (gap : Spacing) (apart : gap.text ≠ []) (argument : Draft)
  | lone (name : TagName)

inductive DraftItems where
  | close (gap : Spacing)
  | last (before : Spacing) (value : Draft) (after : Spacing)
  | more (before : Spacing) (value : Draft) (after : Spacing) (rest : DraftItems)

inductive DraftPairs where
  | close (gap : Spacing)
  | last (before : Spacing) (entry : DraftEntry)
  | more (before : Spacing) (entry : DraftEntry) (rest : DraftPairs)

inductive DraftEntry where
  | bare (key : Letters) (gap : Spacing)
  | empty (key : Letters) (gap : Spacing)
  | filled (key : Letters) (gap after : Spacing) (value : Draft) (final : Spacing)

end

mutual

def Draft.text : Draft → List Char
  | .word letters => letters.text
  | .quoted body => inQuotes body.text
  | .sequence items => '[' :: items.text
  | .mapping pairs => '\x7b' :: pairs.text
  | .tagged name gap _ argument => '!' :: (name.text ++ (gap.text ++ argument.text))
  | .lone name => '!' :: name.text

def DraftItems.text : DraftItems → List Char
  | .close gap => gap.text ++ [']']
  | .last before value after => before.text ++ (value.text ++ (after.text ++ [']']))
  | .more before value after rest => before.text ++ (value.text ++ (after.text ++ ',' :: rest.text))

def DraftPairs.text : DraftPairs → List Char
  | .close gap => gap.text ++ ['\x7d']
  | .last before entry => before.text ++ (entry.text ++ ['\x7d'])
  | .more before entry rest => before.text ++ (entry.text ++ ',' :: rest.text)

def DraftEntry.text : DraftEntry → List Char
  | .bare key gap => key.text ++ gap.text
  | .empty key gap => key.text ++ (gap.text ++ [':'])
  | .filled key gap after value final =>
    key.text ++ (gap.text ++ ':' :: ' ' :: (after.text ++ (value.text ++ final.text)))

end

mutual

/-- Whether some tag in a value names no function, or stands in a collection without an argument. -/
def Draft.isMalformed (inFlow : Bool) : Draft → Bool
  | .word _ | .quoted _ => false
  | .sequence items => items.isMalformed
  | .mapping pairs => pairs.isMalformed
  | .tagged name _ _ argument => !name.isKnown || argument.isMalformed inFlow
  | .lone name => !name.isKnown || inFlow

def DraftItems.isMalformed : DraftItems → Bool
  | .close _ => false
  | .last _ value _ => value.isMalformed true
  | .more _ value _ rest => value.isMalformed true || rest.isMalformed

def DraftPairs.isMalformed : DraftPairs → Bool
  | .close _ => false
  | .last _ entry => entry.isMalformed
  | .more _ entry rest => entry.isMalformed || rest.isMalformed

def DraftEntry.isMalformed : DraftEntry → Bool
  | .bare .. | .empty .. => false
  | .filled _ _ _ value _ => value.isMalformed true

end

def ReadsUnless {α : Type} (malformed : Bool) (rest : List Char) (result : Except FlowFault (α × List Char)) : Prop :=
  (malformed = true ∧ ∃ fault, result = .error fault) ∨ (malformed = false ∧ ∃ a, result = .ok (a, rest))

theorem ReadsUnless.map {α β : Type} {malformed : Bool} {rest : List Char} {result : Except FlowFault (α × List Char)}
    (h : ReadsUnless malformed rest result) (f : α → β) : ReadsUnless malformed rest (mapRead f result) := by
  obtain ⟨hbad, fault, rfl⟩ | ⟨hgood, a, rfl⟩ := h
  · exact .inl ⟨hbad, fault, rfl⟩
  · exact .inr ⟨hgood, f a, rfl⟩

theorem Draft.text_eq_cons (value : Draft) :
    ∃ c cs, value.text = c :: cs ∧ Text.isGap c = false ∧ endsPlain c = false := by
  cases value with
  | word letters =>
    obtain ⟨c, cs, hcs, hgap, hends⟩ := (Node.plain letters.scalar).source_eq_cons
    exact ⟨c, cs, hcs, hgap, hends⟩
  | quoted body => exact ⟨'"', body.text ++ ['"'], rfl, rfl, rfl⟩
  | sequence items => exact ⟨'[', items.text, rfl, rfl, rfl⟩
  | mapping pairs => exact ⟨'\x7b', pairs.text, rfl, rfl, rfl⟩
  | tagged name gap _ argument => exact ⟨'!', name.text ++ (gap.text ++ argument.text), rfl, rfl, rfl⟩
  | lone name => exact ⟨'!', name.text, rfl, rfl, rfl⟩

theorem Draft.afterGap_text (value : Draft) (rest : List Char) : afterGap (value.text ++ rest) = value.text ++ rest := by
  obtain ⟨c, cs, hcs, hgap, -⟩ := value.text_eq_cons
  rw [hcs, List.cons_append, afterGap_cons hgap]

theorem Draft.isBlockIndicator_text (value : Draft) : isBlockIndicator value.text = false := by
  cases value with
  | word letters => exact letters.scalar.announcesNothing
  | _ => rfl

theorem TagName.head_append_ne (name : TagName) {rest : List Char} (hmark : rest.head? ≠ some '!') :
    (name.text ++ rest).head? ≠ some '!' := by
  cases hname : name.text with
  | nil => exact hmark
  | cons c cs =>
    have hc : c.isAlphanum = true := name.isAlphanum c (by simp [hname])
    rintro ⟨⟩
    contradiction

/-- An item is read with the gaps around it, and then its sequence goes on behind the comma or ends. -/
theorem Draft.itemsAt_text {value : Draft} {malformed : Bool} (before after : Spacing) {d : Char} (hd : endsPlain d = true)
    {rest : List Char}
    (h : ReadsUnless malformed (after.text ++ d :: rest) (flowAt true (value.text ++ (after.text ++ d :: rest)))) :
    (malformed = true ∧ ∃ fault, itemsAt (before.text ++ (value.text ++ (after.text ++ d :: rest))) = .error fault) ∨
      (malformed = false ∧ ∃ gap flow gap', itemsAt (before.text ++ (value.text ++ (after.text ++ d :: rest))) =
        if d = ',' then mapRead (.more gap flow gap') (itemsAt rest)
        else if d = ']' then .ok (.last gap flow gap', rest)
        else .error (.unexpectedInSequence d)) := by
  have hgap : afterGap (before.text ++ (value.text ++ (after.text ++ d :: rest))) =
      value.text ++ (after.text ++ d :: rest) := by
    rw [afterGap_append before.isGap, value.afterGap_text]
  have hread := flowAt_afterGap true (before.text ++ (value.text ++ (after.text ++ d :: rest)))
  rw [hgap] at hread
  obtain ⟨c, cs, hcs, -, hends⟩ := value.text_eq_cons
  have hnil : afterGap (before.text ++ (value.text ++ (after.text ++ d :: rest))) ≠ [] := by
    rw [hgap, hcs]
    exact List.cons_ne_nil _ _
  have hclose : (afterGap (before.text ++ (value.text ++ (after.text ++ d :: rest)))).head? ≠ some ']' := by
    rw [hgap, hcs]
    rintro ⟨⟩
    contradiction
  obtain ⟨hbad, fault, herror⟩ | ⟨hgood, flow, hflow⟩ := h
  · exact .inl ⟨hbad, fault, itemsAt_of_error (hread.symm.trans herror) hnil hclose⟩
  · have hleft := afterGap_append_cons after.isGap (not_isGap_of_endsPlain hd) rest
    exact .inr ⟨hgood, _, flow, _, itemsAt_of_flowAt (hread.symm.trans hflow) hleft hnil hclose⟩

theorem DraftEntry.key_append (entry : DraftEntry) :
    ∃ (key : Letters) (gap : Spacing) (cs : List Char), entry.text = key.text ++ (gap.text ++ cs) := by
  cases entry with
  | bare key gap => exact ⟨key, gap, [], by simp [DraftEntry.text]⟩
  | empty key gap => exact ⟨key, gap, [':'], rfl⟩
  | filled key gap after value final => exact ⟨key, gap, _, rfl⟩

theorem DraftEntry.text_eq_cons (entry : DraftEntry) :
    ∃ c cs, entry.text = c :: cs ∧ Text.isGap c = false ∧ c ≠ '\x7d' := by
  obtain ⟨key, gap, rest, htext⟩ := entry.key_append
  obtain ⟨c, cs, hcs, hc⟩ := key.text_eq_cons
  have hbrace : c ≠ '\x7d' := ne_of_isTame (isTame_of_isAlphanum hc) rfl
  exact ⟨c, cs ++ (gap.text ++ rest), by rw [htext, hcs]; rfl, isGap_of_isAlphanum hc, hbrace⟩

/-- An entry is read behind its gap, and then its mapping goes on behind the comma or ends. -/
theorem DraftEntry.pairsAt_text {entry : DraftEntry} {malformed : Bool} (before : Spacing) {d : Char}
    {rest key afterKey : List Char} (hkey : keyAt (entry.text ++ d :: rest) = .ok (key, afterKey))
    (h : ReadsUnless malformed (d :: rest) (slotAt (afterGap afterKey))) :
    (malformed = true ∧ ∃ fault, pairsAt (before.text ++ (entry.text ++ d :: rest)) = .error fault) ∨
      (malformed = false ∧ ∃ gap slot gap', pairsAt (before.text ++ (entry.text ++ d :: rest)) =
        if d = ',' then mapRead (.more gap key gap' slot) (pairsAt rest)
        else if d = '\x7d' then .ok (.last gap key gap' slot, rest)
        else .error (.unexpectedInMapping d)) := by
  obtain ⟨c, cs, hcs, hc, hbrace⟩ := entry.text_eq_cons
  have hgap : afterGap (before.text ++ (entry.text ++ d :: rest)) = entry.text ++ d :: rest := by
    rw [afterGap_append before.isGap, hcs, List.cons_append, afterGap_cons hc]
  have hnil : afterGap (before.text ++ (entry.text ++ d :: rest)) ≠ [] := by
    rw [hgap, hcs]
    exact List.cons_ne_nil _ _
  have hclose : (afterGap (before.text ++ (entry.text ++ d :: rest))).head? ≠ some '\x7d' := by
    rw [hgap, hcs]
    exact fun h => hbrace (Option.some.inj h)
  rw [← hgap] at hkey
  obtain ⟨hbad, fault, hslot⟩ | ⟨hgood, slot, hslot⟩ := h
  · exact .inl ⟨hbad, fault, pairsAt_of_error hkey hslot hnil hclose⟩
  · exact .inr ⟨hgood, _, slot, _, pairsAt_of_slotAt hkey hslot hnil hclose⟩

theorem slotAt_draft (after : Spacing) {value : Draft} {malformed : Bool} (final : Spacing) {d : Char}
    (hd : endsPlain d = true) {rest : List Char}
    (h : ReadsUnless malformed (final.text ++ d :: rest) (flowAt true (value.text ++ (final.text ++ d :: rest)))) :
    ReadsUnless malformed (d :: rest) (slotAt (':' :: (after.text ++ (value.text ++ (final.text ++ d :: rest))))) := by
  obtain ⟨c, cs, hcs, -, hends⟩ := value.text_eq_cons
  have hgap : afterGap (after.text ++ (value.text ++ (final.text ++ d :: rest))) =
      value.text ++ (final.text ++ d :: rest) := by
    rw [afterGap_append after.isGap, value.afterGap_text]
  have hslot : endsSlot (value.text ++ (final.text ++ d :: rest)) = false := by
    simp only [endsPlain, Bool.or_eq_false_iff] at hends
    simp [hcs, endsSlot, hends]
  rw [slotAt_colon, hgap, hslot]
  obtain ⟨hbad, fault, hread⟩ | ⟨hgood, flow, hread⟩ := h
  · exact .inl ⟨hbad, fault, by rw [hread]; rfl⟩
  · have hfinal := afterGap_append_cons final.isGap (not_isGap_of_endsPlain hd) rest
    refine .inr ⟨hgood, .filled (gapOf (after.text ++ (value.text ++ (final.text ++ d :: rest)))) flow
      (gapOf (final.text ++ d :: rest)), ?_⟩
    rw [hread]
    dsimp only
    rw [hfinal]
    rfl

theorem TagName.isKnown_of_some {name : TagName} {f : Intrinsic} (h : Intrinsic.ofTag? (String.ofList name.text) = some f) :
    name.isKnown = true := by
  rw [TagName.isKnown, h]
  rfl

theorem TagName.isKnown_of_none {name : TagName} (h : Intrinsic.ofTag? (String.ofList name.text) = none) :
    name.isKnown = false := by
  rw [TagName.isKnown, h]
  rfl

/-- A tag behind which nothing stands that could be its argument. -/
theorem TagName.flowAt_lone (name : TagName) {inFlow : Bool} {rest : List Char} (h : Ends inFlow rest) :
    ReadsUnless (!name.isKnown || inFlow) rest (flowAt inFlow ('!' :: (name.text ++ rest))) := by
  rw [flowAt_mark]
  cases h with
  | line =>
    rw [tagAt_alphanum name.isAlphanum (by simp) (name.head_append_ne (by simp))]
    cases hname : Intrinsic.ofTag? (String.ofList name.text) with
    | none => exact .inl ⟨by simp [name.isKnown_of_none hname], _, rfl⟩
    | some f => exact .inr ⟨by simp [name.isKnown_of_some hname], _, rfl⟩
  | inFlow spacing cs hends =>
    rename_i c
    have hhead : ∀ d ∈ (spacing.text ++ c :: cs).head?, d.isAlphanum = false ∧ d ≠ '!' := by
      have hgap (d : Char) (hd : Text.isGap d = true) : d.isAlphanum = false ∧ d ≠ '!' := by
        refine ⟨not_isAlphanum_of_isGap hd, ?_⟩
        rintro rfl
        contradiction
      have hend : c.isAlphanum = false ∧ c ≠ '!' := by
        simp only [endsPlain, Bool.or_eq_true, beq_iff_eq] at hends
        obtain (rfl | rfl) | rfl := hends <;> decide
      exact spacing.forall_head hgap fun d hd => Option.some.inj hd ▸ hend
    rw [tagAt_alphanum name.isAlphanum (fun d hd => (hhead d hd).1)
      (name.head_append_ne fun hmark => (hhead '!' hmark).2 rfl),
      afterGap_append_cons spacing.isGap (not_isGap_of_endsPlain hends)]
    cases hname : Intrinsic.ofTag? (String.ofList name.text) with
    | none => exact .inl ⟨by simp, _, rfl⟩
    | some f => exact .inl ⟨by simp, .noArgument (String.ofList name.text), by simp [lacksArgument, hends]⟩

/-- A tag with a value behind its gap. -/
theorem TagName.flowAt_tagged (name : TagName) {gap : Spacing} (apart : gap.text ≠ []) {argument : Draft} {malformed : Bool}
    {inFlow : Bool} {rest : List Char} (h : Ends inFlow rest)
    (hargument : ReadsUnless malformed rest (flowAt inFlow (argument.text ++ rest))) :
    ReadsUnless (!name.isKnown || malformed) rest
      (flowAt inFlow ('!' :: (name.text ++ (gap.text ++ (argument.text ++ rest))))) := by
  have hhead : (gap.text ++ (argument.text ++ rest)).head? ≠ some '!' := by
    obtain ⟨c, cs, hcs⟩ := List.exists_cons_of_ne_nil apart
    rw [hcs]
    rintro ⟨⟩
    exact absurd (gap.isGap '!' (by simp [hcs])) (by decide)
  have hgap : afterGap (gap.text ++ (argument.text ++ rest)) = argument.text ++ rest := by
    rw [afterGap_append gap.isGap, argument.afterGap_text]
  have hlacks : lacksArgument inFlow (argument.text ++ rest) = false := by
    obtain ⟨c, cs, hcs, -, hends⟩ := argument.text_eq_cons
    simp [hcs, lacksArgument, hends]
  have hindicator : (!inFlow && isBlockIndicator (argument.text ++ rest)) = false := by
    cases h with
    | line => rw [List.append_nil, argument.isBlockIndicator_text, Bool.and_false]
    | inFlow => rfl
  rw [flowAt_mark, tagAt_alphanum name.isAlphanum (isAlphanum_head_append apart) (name.head_append_ne hhead), hgap, hlacks,
    hindicator]
  cases hname : Intrinsic.ofTag? (String.ofList name.text) with
  | none => exact .inl ⟨by simp [name.isKnown_of_none hname], _, rfl⟩
  | some f =>
    rw [name.isKnown_of_some hname, Bool.not_true, Bool.false_or]
    exact hargument.map (Flow.call f)

mutual

/-- A value is read to its end, or reading it fails if there is a malformed tag at any depth. -/
theorem Draft.flowAt_text (value : Draft) {inFlow : Bool} {rest : List Char} (h : Ends inFlow rest) :
    ReadsUnless (value.isMalformed inFlow) rest (flowAt inFlow (value.text ++ rest)) := by
  match value with
  | .word letters => exact .inr ⟨rfl, _, flowAt_scalar letters.scalar h⟩
  | .quoted body => exact .inr ⟨rfl, _, flowAt_quoted body inFlow rest⟩
  | .sequence items =>
    rw [Draft.text, List.cons_append, flowAt_bracket]
    exact (items.itemsAt_text rest).map Flow.sequence
  | .mapping pairs =>
    rw [Draft.text, List.cons_append, flowAt_brace]
    exact (pairs.pairsAt_text rest).map Flow.mapping
  | .tagged name gap apart argument =>
    have hread := name.flowAt_tagged apart h (argument.flowAt_text h)
    simpa only [Draft.text, Draft.isMalformed, List.cons_append, List.append_assoc] using hread
  | .lone name =>
    rw [Draft.text, List.cons_append]
    exact name.flowAt_lone h

theorem DraftItems.itemsAt_text (items : DraftItems) (rest : List Char) :
    ReadsUnless items.isMalformed rest (itemsAt (items.text ++ rest)) := by
  match items with
  | .close gap =>
    refine .inr ⟨rfl, .close gap.text, ?_⟩
    rw [DraftItems.text, List.append_assoc, List.singleton_append, itemsAt_close gap.isGap]
  | .last before value after =>
    have hvalue := value.flowAt_text (.inFlow after rest (show endsPlain ']' = true from rfl))
    simp only [DraftItems.text, List.append_assoc, List.singleton_append]
    obtain ⟨hbad, herror⟩ | ⟨hgood, gap, flow, gap', hread⟩ := Draft.itemsAt_text before after rfl hvalue
    · exact .inl ⟨hbad, herror⟩
    · exact .inr ⟨hgood, .last gap flow gap', hread⟩
  | .more before value after others =>
    have hvalue := value.flowAt_text (.inFlow after (others.text ++ rest) (show endsPlain ',' = true from rfl))
    simp only [DraftItems.text, List.append_assoc, List.cons_append]
    obtain ⟨hbad, herror⟩ | ⟨hgood, gap, flow, gap', hread⟩ := Draft.itemsAt_text before after rfl hvalue
    · exact .inl ⟨by rw [DraftItems.isMalformed, hbad, Bool.true_or], herror⟩
    · rw [hread, if_pos rfl, DraftItems.isMalformed, hgood, Bool.false_or]
      exact (others.itemsAt_text rest).map _

theorem DraftPairs.pairsAt_text (pairs : DraftPairs) (rest : List Char) :
    ReadsUnless pairs.isMalformed rest (pairsAt (pairs.text ++ rest)) := by
  match pairs with
  | .close gap =>
    refine .inr ⟨rfl, .close gap.text, ?_⟩
    rw [DraftPairs.text, List.append_assoc, List.singleton_append, pairsAt_close gap.isGap]
  | .last before entry =>
    obtain ⟨key, afterKey, hkey, hslot⟩ := entry.slotAt_text (.inr rfl : '\x7d' = ',' ∨ '\x7d' = '\x7d') rest
    simp only [DraftPairs.text, List.append_assoc, List.singleton_append]
    obtain ⟨hbad, herror⟩ | ⟨hgood, gap, slot, gap', hread⟩ := DraftEntry.pairsAt_text before hkey hslot
    · exact .inl ⟨hbad, herror⟩
    · exact .inr ⟨hgood, .last gap key gap' slot, hread⟩
  | .more before entry others =>
    obtain ⟨key, afterKey, hkey, hslot⟩ := entry.slotAt_text (.inl rfl : ',' = ',' ∨ ',' = '\x7d') (others.text ++ rest)
    simp only [DraftPairs.text, List.append_assoc, List.cons_append]
    obtain ⟨hbad, herror⟩ | ⟨hgood, gap, slot, gap', hread⟩ := DraftEntry.pairsAt_text before hkey hslot
    · exact .inl ⟨by rw [DraftPairs.isMalformed, hbad, Bool.true_or], herror⟩
    · rw [hread, if_pos rfl, DraftPairs.isMalformed, hgood, Bool.false_or]
      exact (others.pairsAt_text rest).map _

/-- A key is read, and what stands behind it up to the comma or the brace behind the entry. -/
theorem DraftEntry.slotAt_text (entry : DraftEntry) {d : Char} (hd : d = ',' ∨ d = '\x7d') (rest : List Char) :
    ∃ key afterKey, keyAt (entry.text ++ d :: rest) = .ok (key, afterKey) ∧
      ReadsUnless entry.isMalformed (d :: rest) (slotAt (afterGap afterKey)) := by
  have hends : endsPlain d = true := by obtain rfl | rfl := hd <;> rfl
  have hgap : Text.isGap d = false := not_isGap_of_endsPlain hends
  match entry with
  | .bare key gap =>
    have hcolon : d ≠ ':' := by obtain rfl | rfl := hd <;> decide
    have hlast : (key.text ++ gap.text).getLast? ≠ some ':' := fun hlast =>
      (key.ne_of_mem_append gap ':' (List.mem_of_getLast? hlast)).2.2 rfl
    refine ⟨key.text, gap.text ++ d :: rest, ?_, .inr ⟨rfl, .bare, ?_⟩⟩
    · rw [DraftEntry.text, List.append_assoc, (key.keyText gap).isKey.keyAt_end hlast hd]
    · rw [afterGap_append_cons gap.isGap hgap, slotAt_bare (by simpa using hcolon)]
  | .empty key gap =>
    have happart : isApart key.text noSpace.text || noSpace.text.isEmpty := by simp [noSpace]
    have hkey := (key.keyText gap).isKey.keyAt_colon_end happart hd rest
    refine ⟨key.text, gap.text ++ ':' :: d :: rest, ?_, .inr ⟨rfl, .empty [], ?_⟩⟩
    · simpa [DraftEntry.text, noSpace] using hkey
    · have hslot : endsSlot (d :: rest) = true := by obtain rfl | rfl := hd <;> rfl
      rw [afterGap_append_cons gap.isGap rfl]
      exact slotAt_of_endsSlot (List.forall_mem_nil _) hgap hslot
  | .filled key gap after value final =>
    have hvalue := value.flowAt_text (.inFlow final rest hends)
    let space : Spacing := ⟨' ' :: after.text, List.forall_mem_cons.2 ⟨rfl, after.isGap⟩⟩
    have hapart : isApart key.text space.text = true := by simp [isApart, space]
    have hkey := (key.keyText gap).isKey.keyAt_colon hapart (value.text ++ (final.text ++ d :: rest))
    refine ⟨key.text, gap.text ++ ':' :: (space.text ++ (value.text ++ (final.text ++ d :: rest))), ?_, ?_⟩
    · rw [← hkey]
      simp [DraftEntry.text, space]
    · rw [afterGap_append_cons gap.isGap rfl]
      exact slotAt_draft space final hends hvalue

end

mutual

theorem Draft.mem_mark (value : Draft) {inFlow : Bool} (h : value.isMalformed inFlow = true) : '!' ∈ value.text := by
  match value with
  | .sequence items => exact List.mem_cons_of_mem _ (items.mem_mark h)
  | .mapping pairs => exact List.mem_cons_of_mem _ (pairs.mem_mark h)
  | .tagged .. => exact List.mem_cons_self
  | .lone _ => exact List.mem_cons_self

theorem DraftItems.mem_mark (items : DraftItems) (h : items.isMalformed = true) : '!' ∈ items.text := by
  match items with
  | .last before value after => simp [DraftItems.text, value.mem_mark h]
  | .more before value after rest =>
    cases Bool.or_eq_true_iff.1 h with
    | inl h => simp [DraftItems.text, value.mem_mark h]
    | inr h => simp [DraftItems.text, rest.mem_mark h]

theorem DraftPairs.mem_mark (pairs : DraftPairs) (h : pairs.isMalformed = true) : '!' ∈ pairs.text := by
  match pairs with
  | .last before entry => simp [DraftPairs.text, entry.mem_mark h]
  | .more before entry rest =>
    cases Bool.or_eq_true_iff.1 h with
    | inl h => simp [DraftPairs.text, entry.mem_mark h]
    | inr h => simp [DraftPairs.text, rest.mem_mark h]

theorem DraftEntry.mem_mark (entry : DraftEntry) (h : entry.isMalformed = true) : '!' ∈ entry.text := by
  match entry with
  | .filled key gap after value final => simp [DraftEntry.text, value.mem_mark h]

end

theorem Letters.isInert (letters : Letters) : IsInert letters.text :=
  isInert_of_isIdle fun c hc => isIdle_of (letters.isAlphanum c hc) rfl

theorem Spacing.isInert (spacing : Spacing) : IsInert spacing.text :=
  isInert_of_isIdle fun c hc => isIdle_of_isGap (spacing.isGap c hc)

theorem TagName.isInert (name : TagName) : IsInert ('!' :: name.text) :=
  isInert_of_isIdle (List.forall_mem_cons.2 ⟨rfl, fun c hc => isIdle_of (name.isAlphanum c hc) rfl⟩)

mutual

theorem Draft.isInert (value : Draft) : IsInert value.text := by
  match value with
  | .word letters => exact letters.isInert
  | .quoted body => exact isInert_inQuotes body.closed
  | .sequence items =>
    have hbracket : IsPlainRun 1 true ['['] := ⟨⟨rfl, rfl⟩, rfl⟩
    exact hbracket.append (items.isPlainRun.mono (Bool.le_true _))
  | .mapping pairs =>
    have hbrace : IsPlainRun 1 true ['\x7b'] := ⟨⟨rfl, rfl⟩, rfl⟩
    exact hbrace.append (pairs.isPlainRun.mono (Bool.le_true _))
  | .tagged name gap _ argument =>
    have htag := name.isInert.append (gap.isInert.append argument.isInert)
    simpa [Draft.text] using htag
  | .lone name => exact name.isInert

/-- The items of a sequence close one bracket more than they open. -/
theorem DraftItems.isPlainRun (items : DraftItems) : IsPlainRun (-1) true items.text := by
  have hbracket : IsPlainRun (-1) true [']'] := ⟨⟨rfl, rfl⟩, rfl⟩
  have hcomma : IsInert [','] := ⟨⟨rfl, rfl⟩, rfl⟩
  match items with
  | .close gap => exact gap.isInert.behind hbracket
  | .last before value after => exact before.isInert.behind (value.isInert.behind (after.isInert.behind hbracket))
  | .more before value after rest =>
    exact before.isInert.behind (value.isInert.behind (after.isInert.behind (hcomma.behind rest.isPlainRun)))

theorem DraftPairs.isPlainRun (pairs : DraftPairs) : IsPlainRun (-1) true pairs.text := by
  have hbrace : IsPlainRun (-1) true ['\x7d'] := ⟨⟨rfl, rfl⟩, rfl⟩
  have hcomma : IsInert [','] := ⟨⟨rfl, rfl⟩, rfl⟩
  match pairs with
  | .close gap => exact gap.isInert.behind hbrace
  | .last before entry => exact before.isInert.behind (entry.isInert.behind hbrace)
  | .more before entry rest => exact before.isInert.behind (entry.isInert.behind (hcomma.behind rest.isPlainRun))

theorem DraftEntry.isInert (entry : DraftEntry) : IsInert entry.text := by
  have hcolon : IsInert [':', ' '] := ⟨⟨rfl, rfl⟩, rfl⟩
  match entry with
  | .bare key gap => exact key.isInert.append gap.isInert
  | .empty key gap => exact key.isInert.append (gap.isInert.append ⟨⟨rfl, rfl⟩, rfl⟩)
  | .filled key gap after value final =>
    exact key.isInert.append (gap.isInert.append
      (hcolon.append (after.isInert.append (value.isInert.append final.isInert))))

end

theorem TagName.endsFilled (name : TagName) : EndsFilled ('!' :: name.text) := by
  obtain hnil | ⟨front, c, hfront⟩ := List.eq_nil_or_concat' name.text
  · exact ⟨[], '!', by rw [hnil]; rfl, rfl, by decide⟩
  · have hc : c.isAlphanum = true := name.isAlphanum c (by simp [hfront])
    exact ⟨'!' :: front, c, by rw [hfront]; rfl, isBlank_of_isAlphanum hc, ne_of_isTame (isTame_of_isAlphanum hc) rfl⟩

mutual

theorem Draft.endsFilled (value : Draft) : EndsFilled value.text := by
  match value with
  | .word letters => exact (TightFlow.word letters).endsFilled
  | .quoted body => exact ⟨'"' :: body.text, '"', rfl, rfl, by decide⟩
  | .sequence items => exact items.endsFilled.append ['[']
  | .mapping pairs => exact pairs.endsFilled.append ['\x7b']
  | .tagged name gap _ argument => exact (argument.endsFilled.append gap.text).append ('!' :: name.text)
  | .lone name => exact name.endsFilled

theorem DraftItems.endsFilled (items : DraftItems) : EndsFilled items.text := by
  have hbracket : EndsFilled [']'] := ⟨[], ']', rfl, rfl, by decide⟩
  match items with
  | .close gap => exact hbracket.append gap.text
  | .last before value after => exact ((hbracket.append after.text).append value.text).append before.text
  | .more before value after rest =>
    exact (((rest.endsFilled.append [',']).append after.text).append value.text).append before.text

theorem DraftPairs.endsFilled (pairs : DraftPairs) : EndsFilled pairs.text := by
  have hbrace : EndsFilled ['\x7d'] := ⟨[], '\x7d', rfl, rfl, by decide⟩
  match pairs with
  | .close gap => exact hbrace.append gap.text
  | .last before entry => exact (hbrace.append entry.text).append before.text
  | .more before entry rest => exact ((rest.endsFilled.append [',']).append entry.text).append before.text

end

/-- A value behind a key is the value of its line. -/
theorem Draft.layout_key (value : Draft) (hopens : opensFlow value.text = true) (key : Letters) :
    Layout.of (key.text ++ ':' :: ' ' :: value.text) = ⟨[], some (key.text, [' ']), value.text, []⟩ := by
  obtain ⟨front, c, hfront, hc, -⟩ := value.endsFilled
  have hend : Text.trimEnd value.text = value.text := by rw [hfront, Text.trimEnd_concat hc]
  have hlayout := layout_trailing key hopens hend value.isInert.closes value.isInert.noComment .nil
  rwa [List.append_nil] at hlayout

/-- A fault in the value of a line is one of that line. -/
theorem Draft.step_of_error (value : Draft) (hopens : opensFlow value.text = true) {fault : FlowFault}
    (h : expandValue value.text = .error fault) (key : Letters) (number : Nat) (queue : List SourceLine) :
    step .standard ⟨number, key.text ++ ':' :: ' ' :: value.text⟩ queue = .error ⟨number, .flow fault⟩ := by
  have hlayout := value.layout_key hopens key
  have hform : Form.of .standard (Layout.of (key.text ++ ':' :: ' ' :: value.text)) = .other := by
    rw [hlayout]
    exact Form.of_eq_other (isBlockIndicator_of_opensFlow hopens) (.inr (splitLongForm_of_opensFlow hopens))
      fun _ => Int.le_of_eq value.isInert.balance
  have hexpand : expandValue (Layout.of (key.text ++ ':' :: ' ' :: value.text)).value = .error fault := by rwa [hlayout]
  simp [step, settle, hform, hexpand, numbered, bind, Except.bind]

/-- Lines without a mark that are complete by themselves are put out before a run comes to those behind them. -/
theorem normalizeLines_unmarked_append {lines : List (List Char)}
    (h : ∀ line ∈ lines, '!' ∉ line ∧ Form.of .standard (Layout.of line) = .other) (first : Nat) (queue : List SourceLine) :
    normalizeLines .standard (numberLines first lines ++ queue) = (normalizeLines .standard queue).map (lines ++ ·) := by
  induction lines generalizing first with
  | nil => cases hqueue : normalizeLines .standard queue <;> simp [numberLines, hqueue, Except.map]
  | cons line lines ih =>
    obtain ⟨⟨hmark, hform⟩, hlines⟩ := List.forall_mem_cons.1 h
    have hexpand : expandValue (Layout.of line).value = .ok .unchanged := by
      rw [expandValue_eq, hasMark_eq_false (not_mem_value hmark), Bool.false_and, if_neg Bool.false_ne_true]
    have hstep : step .standard ⟨first, line⟩ (numberLines (first + 1) lines ++ queue) =
        .ok ⟨[line], numberLines (first + 1) lines ++ queue⟩ := by
      rw [step_of_other hform hexpand, place, Layout.text_of]
    rw [numberLines, List.cons_append, normalizeLines_of_step hstep, ih hlines]
    cases normalizeLines .standard queue <;> rfl

theorem Draft.exists_fault (value : Draft) (hopens : opensFlow value.text = true)
    (hmalformed : value.isMalformed false = true) : ∃ fault, expandValue value.text = .error fault := by
  have hmark : hasMark value.text = true := by simpa [hasMark] using value.mem_mark hmalformed
  have hread := value.flowAt_text Ends.line
  rw [List.append_nil, hmalformed] at hread
  obtain ⟨-, fault, hfault⟩ | ⟨hgood, -⟩ := hread
  · exact ⟨fault, by rw [expandValue_eq, hmark, hopens, hfault]; rfl⟩
  · contradiction

/-- A value in which some tag at any depth names no function, or stands in a collection without an argument, cannot be
written out, and a document fails at its line whatever follows. -/
theorem normalize_malformed (value : Draft) (hopens : opensFlow value.text = true)
    (hmalformed : value.isMalformed false = true) :
    ∃ fault, expandValue value.text = .error fault ∧
      ∀ (key : Letters) (text : String) (before behind : List (List Char)), '\'' ∉ text.toList →
        splitLines text.toList = before ++ (key.text ++ ':' :: ' ' :: value.text) :: behind →
        (∀ line ∈ before, '!' ∉ line ∧ Form.of .standard (Layout.of line) = .other) →
        normalize .standard text = .error ⟨before.length + 1, .flow fault⟩ := by
  obtain ⟨fault, hfault⟩ := value.exists_fault hopens hmalformed
  refine ⟨fault, hfault, fun key text before behind hquotes hlines hbefore => ?_⟩
  have hnumbers : numberLines 1 (linesOf text) = numberLines 1 before ++
      ⟨1 + before.length, key.text ++ ':' :: ' ' :: value.text⟩ :: numberLines (1 + before.length + 1) behind := by
    rw [linesOf, doubleQuotes_of_not_mem hquotes, hlines, numberLines_append]
    rfl
  rw [normalize_eq_map, hnumbers, normalizeLines_unmarked_append hbefore, normalizeLines_cons,
    value.step_of_error hopens hfault key, Nat.add_comm 1]
  rfl

/-- A tag without an argument behind another one, in a mapping behind a word and a string. -/
theorem normalize_malformed_nested :
    ∃ fault, expandValue "[a, \x7bk: \"x, ]\", m: !Join !Ref \x7d]".toList = .error fault ∧
      normalize .standard "A: 1\nK: [a, \x7bk: \"x, ]\", m: !Join !Ref \x7d]\nB: !Sub |" = .error ⟨2, .flow fault⟩ := by
  let letters (c : Char) (hc : c.isAlpha = true) : Letters := ⟨[c], List.cons_ne_nil _ _, List.forall_mem_singleton.2 hc⟩
  let name (f : Intrinsic) : TagName := ⟨f.tag.toList, fun _ => isAlphanum_of_mem_tag⟩
  let argument : Draft := .tagged (name .join) oneSpace oneSpace_ne_nil (.lone (name .ref))
  let pairs : DraftPairs := .more noSpace (.filled (letters 'k' rfl) noSpace noSpace (.quoted ⟨"x, ]".toList, rfl⟩) noSpace)
    (.last oneSpace (.filled (letters 'm' rfl) noSpace noSpace argument oneSpace))
  let value : Draft := .sequence (.more noSpace (.word (letters 'a' rfl)) noSpace (.last oneSpace (.mapping pairs) noSpace))
  obtain ⟨fault, hfault, hdocument⟩ := normalize_malformed value (by decide) (by decide)
  exact ⟨fault, hfault, hdocument (letters 'K' rfl) _ ["A: 1".toList] ["B: !Sub |".toList] (by decide) (by decide)
    (List.forall_mem_singleton.2 (by decide))⟩

end CloudTemplate.Shorthand
