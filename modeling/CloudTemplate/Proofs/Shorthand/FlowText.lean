import CloudTemplate.Proofs.Shorthand.Reading
import CloudTemplate.Proofs.Shorthand.NodeReading
/-! Values on one line without shorthand, as a grammar of their texts. Whatever follows such a text, it
is read as far as it goes, and no call is found in it. -/
namespace CloudTemplate.Shorthand

def startsPlain : List Char → Bool
  | [] => true
  | c :: _ => !Text.isGap c && !(['!', '[', '\x7b', '"'].contains c)

structure IsPlain (cs : List Char) : Prop where
  starts : startsPlain cs = true
  ends : Text.trimEnd cs = cs
  unbroken : ∀ c ∈ cs, endsPlain c = false

inductive KeyText : List Char → List Char → Prop
  | quoted {body : List Char} (h : staysQuoted body = true) (hline : '\n' ∉ body) (gap : Spacing) :
      KeyText (inQuotes body) gap.text
  | plain {key : List Char} (gap : Spacing)
      (hstart : (key ++ gap.text).head?.all (fun c => !Text.isGap c && c != '"') = true)
      (hend : Text.trimEnd key = key) (hbody : staysKey (key ++ gap.text) = true) (hline : '\n' ∉ key) :
      KeyText key gap.text

def isApart (key after : List Char) : Bool := key.head? == some '"' || after.head? == some ' '

mutual

inductive FlowText (tags : Bool) : List Char → Prop
  | plain {cs : List Char} (h : IsPlain cs) (hline : '\n' ∉ cs) : FlowText tags cs
  | quoted {body : List Char} (h : staysQuoted body = true) (hline : '\n' ∉ body) :
      FlowText tags (inQuotes body)
  | tagged {name cs : List Char} (htags : tags = true) (hname : ∀ c ∈ name, isTagEnd c = false)
      (hline : '\n' ∉ name) (h : FlowText tags cs) : FlowText tags ('!' :: '!' :: (name ++ ' ' :: cs))
  | sequence {cs : List Char} (h : ItemText tags cs) : FlowText tags ('[' :: cs)
  | mapping {cs : List Char} (h : PairText tags cs) : FlowText tags ('\x7b' :: cs)

inductive ItemText (tags : Bool) : List Char → Prop
  | close (gap : Spacing) : ItemText tags (gap.text ++ [']'])
  | last (before : Spacing) {cs : List Char} (h : FlowText tags cs) (after : Spacing) :
      ItemText tags (before.text ++ (cs ++ (after.text ++ [']'])))
  | more (before : Spacing) {cs : List Char} (h : FlowText tags cs) (after : Spacing) {rest : List Char}
      (hrest : ItemText tags rest) : ItemText tags (before.text ++ (cs ++ (after.text ++ ',' :: rest)))

inductive PairText (tags : Bool) : List Char → Prop
  | close (gap : Spacing) : PairText tags (gap.text ++ ['\x7d'])
  | last (before : Spacing) {cs : List Char} (h : EntryText tags cs) :
      PairText tags (before.text ++ (cs ++ ['\x7d']))
  | more (before : Spacing) {cs : List Char} (h : EntryText tags cs) {rest : List Char}
      (hrest : PairText tags rest) : PairText tags (before.text ++ (cs ++ ',' :: rest))

inductive EntryText (tags : Bool) : List Char → Prop
  | bare {key gap : List Char} (h : KeyText key gap) (hcolon : (key ++ gap).getLast? ≠ some ':') :
      EntryText tags (key ++ gap)
  | empty {key gap : List Char} (h : KeyText key gap) (after : Spacing)
      (happart : isApart key after.text || after.text.isEmpty) : EntryText tags (key ++ (gap ++ ':' :: after.text))
  | filled {key gap : List Char} (h : KeyText key gap) (after : Spacing)
      (happart : isApart key after.text = true) {cs : List Char} (hvalue : FlowText tags cs) (final : Spacing) :
      EntryText tags (key ++ (gap ++ ':' :: (after.text ++ (cs ++ final.text))))

end

mutual

def Flow.isCallFree (tags : Bool) : Flow → Bool
  | .plain _ | .quoted _ => true
  | .sequence items => items.isCallFree tags
  | .mapping pairs => pairs.isCallFree tags
  | .kept _ value => tags && value.isCallFree tags
  | .call .. | .opened .. => false
termination_by structural value => value

def Items.isCallFree (tags : Bool) : Items → Bool
  | .close _ => true
  | .last _ value _ => value.isCallFree tags
  | .more _ value _ rest => value.isCallFree tags && rest.isCallFree tags
termination_by structural items => items

def Pairs.isCallFree (tags : Bool) : Pairs → Bool
  | .close _ => true
  | .last _ _ _ slot => slot.isCallFree tags
  | .more _ _ _ slot rest => slot.isCallFree tags && rest.isCallFree tags
termination_by structural pairs => pairs

def Slot.isCallFree (tags : Bool) : Slot → Bool
  | .bare | .empty _ => true
  | .filled _ value _ => value.isCallFree tags
termination_by structural slot => slot

end

/-- What holds of the first character of a text and of one behind it holds of the first character of both. -/
theorem forall_head_append {p : Char → Prop} {cs : List Char} (h : ∀ c ∈ cs.head?, p c) {d : Char} (hd : p d)
    (rest : List Char) : ∀ c ∈ (cs ++ d :: rest).head?, p c := by
  cases cs with
  | nil =>
    intro c hc
    cases hc
    exact hd
  | cons c cs => exact h

theorem afterGap_of_head {cs : List Char} (h : ∀ c ∈ cs.head?, Text.isGap c = false) : afterGap cs = cs := by
  cases cs with
  | nil => rfl
  | cons c cs => exact afterGap_cons (h c rfl) cs

inductive IsKey : List Char → List Char → Prop
  | quoted {body : List Char} (h : staysQuoted body = true) (gap : Spacing) : IsKey (inQuotes body) gap.text
  | plain {key : List Char} (gap : Spacing)
      (hstart : (key ++ gap.text).head?.all (fun c => !Text.isGap c && c != '"') = true)
      (hend : Text.trimEnd key = key) (hbody : staysKey (key ++ gap.text) = true) : IsKey key gap.text

namespace IsKey

variable {key gap : List Char}

theorem isGap (h : IsKey key gap) : ∀ c ∈ gap, Text.isGap c = true := by
  cases h with
  | quoted _ gap => exact gap.isGap
  | plain gap => exact gap.isGap

/-- What stands behind a key and its spacing, and does not belong to it. -/
theorem keyAt_append (h : IsKey key gap) {tail : List Char} (htail : key.head? ≠ some '"' → plainKeyRun tail = [])
    (hlast : (key ++ gap).getLast? = some ':' → tail.head? = some ':') (hquote : tail.head? ≠ some '"') :
    keyAt (key ++ (gap ++ tail)) = .ok (key, gap ++ tail) := by
  cases h with
  | @quoted body h gap =>
    have htext : inQuotes body ++ (gap.text ++ tail) = '"' :: (body ++ '"' :: (gap.text ++ tail)) := by
      simp [inQuotes]
    have hclose := closeQuote_append ⟨body, h⟩ (gap.text ++ tail)
    rw [htext, keyAt_quote, hclose]
    rfl
  | plain gap hstart hend hbody =>
    have hhead : (key ++ (gap.text ++ tail)).head? ≠ some '"' := by
      intro hhead
      rw [← List.append_assoc] at hhead
      cases hfront : key ++ gap.text with
      | nil =>
        rw [hfront] at hhead
        exact hquote hhead
      | cons c cs =>
        rw [hfront] at hhead hstart
        cases hhead
        simp at hstart
    have hplain : key.head? ≠ some '"' := by
      intro heq
      obtain ⟨cs, rfl⟩ := List.head?_eq_some_iff.1 heq
      simp at hstart
    have hkey : plainKey (key ++ (gap.text ++ tail)) = key := by
      rw [plainKey, ← List.append_assoc, plainKeyRun_append hbody (htail hplain) hlast,
        Text.trimEnd_append_blank _ gap.isBlank, hend]
    rw [keyAt_plain hhead, hkey, List.drop_left]

/-- A key that a value follows. -/
theorem keyAt_colon (h : IsKey key gap) {after : Spacing} (happart : isApart key after.text = true) (cs : List Char) :
    keyAt (key ++ (gap ++ ':' :: (after.text ++ cs))) = .ok (key, gap ++ ':' :: (after.text ++ cs)) := by
  have hstop : key.head? ≠ some '"' → plainKeyRun (':' :: (after.text ++ cs)) = [] := by
    intro hplain
    cases hafter : after.text with
    | nil => simp [isApart, hplain, hafter] at happart
    | cons c cs =>
      have hc : c = ' ' := by simpa [isApart, hplain, hafter] using happart
      simp [hc, plainKeyRun]
  exact h.keyAt_append hstop (fun _ => rfl) (by simp)

/-- A key that ends its entry. -/
theorem keyAt_end (h : IsKey key gap) (hlast : (key ++ gap).getLast? ≠ some ':') {d : Char} (hd : d = ',' ∨ d = '\x7d')
    (rest : List Char) : keyAt (key ++ (gap ++ d :: rest)) = .ok (key, gap ++ d :: rest) := by
  refine h.keyAt_append (fun _ => ?_) (fun hcolon => absurd hcolon hlast) ?_
  · obtain rfl | rfl := hd <;> simp [plainKeyRun]
  · obtain rfl | rfl := hd <;> simp

/-- A key whose colon ends its entry. -/
theorem keyAt_colon_end (h : IsKey key gap) {after : Spacing} (happart : isApart key after.text || after.text.isEmpty)
    {d : Char} (hd : d = ',' ∨ d = '\x7d') (rest : List Char) :
    keyAt (key ++ (gap ++ ':' :: (after.text ++ d :: rest))) = .ok (key, gap ++ ':' :: (after.text ++ d :: rest)) := by
  refine h.keyAt_append (fun hplain => ?_) (fun _ => rfl) (by simp)
  cases hafter : after.text with
  | nil => obtain rfl | rfl := hd <;> simp [plainKeyRun]
  | cons c cs =>
    have hc : c = ' ' := by simpa [isApart, hplain, hafter] using happart
    simp [hc, plainKeyRun]

/-- A key with its spacing starts neither with a gap nor with the brace that would end its mapping. -/
theorem starts (h : IsKey key gap) : ∀ c ∈ (key ++ gap).head?, Text.isGap c = false ∧ c ≠ '\x7d' := by
  cases h with
  | quoted =>
    intro c hc
    cases hc
    exact ⟨rfl, by decide⟩
  | plain gap hstart _ hbody =>
    intro c hc
    obtain ⟨cs, hcs⟩ := List.head?_eq_some_iff.1 hc
    rw [hcs] at hstart hbody
    refine ⟨by simp at hstart; exact hstart.1, ?_⟩
    rintro rfl
    simp [staysKey] at hbody

theorem starts_append (h : IsKey key gap) {d : Char} (hd : Text.isGap d = false ∧ d ≠ '\x7d') (rest : List Char) :
    ∀ c ∈ (key ++ (gap ++ d :: rest)).head?, Text.isGap c = false ∧ c ≠ '\x7d' := by
  rw [← List.append_assoc]
  exact forall_head_append h.starts hd rest

theorem keyText (h : IsKey key gap) (hline : '\n' ∉ key) : KeyText key gap := by
  cases h with
  | quoted h gap => exact .quoted h (fun hmem => hline (by simp [inQuotes, hmem])) gap
  | plain gap hstart hend hbody => exact .plain gap hstart hend hbody hline

end IsKey

theorem KeyText.isKey {key gap : List Char} (h : KeyText key gap) : IsKey key gap := by
  cases h with
  | quoted h _ gap => exact .quoted h gap
  | plain gap hstart hend hbody => exact .plain gap hstart hend hbody

theorem itemsAt_of_flowAt {cs left rest : List Char} {value : Flow} {d : Char}
    (hread : flowAt true cs = .ok (value, left)) (hleft : afterGap left = d :: rest)
    (hnil : afterGap cs ≠ []) (hclose : (afterGap cs).head? ≠ some ']') :
    itemsAt cs =
      if d = ',' then mapRead (.more (gapOf cs) value (gapOf left)) (itemsAt rest)
      else if d = ']' then .ok (.last (gapOf cs) value (gapOf left), rest)
      else .error (.unexpectedInSequence d) := by
  obtain ⟨c, tail, hcs⟩ := List.exists_cons_of_ne_nil hnil
  have hc : c ≠ ']' := by
    intro heq
    subst heq
    simp [hcs] at hclose
  have hinner : flowAt true (c :: tail) = .ok (value, left) := by rw [← hcs, flowAt_afterGap, hread]
  rw [itemsAt_eq, hcs]
  simp only [hc, if_false, hinner, hleft]

theorem pairsAt_of_slotAt {cs key afterKey rest : List Char} {slot : Slot} {d : Char}
    (hkey : keyAt (afterGap cs) = .ok (key, afterKey)) (hslot : slotAt (afterGap afterKey) = .ok (slot, d :: rest))
    (hnil : afterGap cs ≠ []) (hclose : (afterGap cs).head? ≠ some '\x7d') :
    pairsAt cs =
      if d = ',' then mapRead (.more (gapOf cs) key (gapOf afterKey) slot) (pairsAt rest)
      else if d = '\x7d' then .ok (.last (gapOf cs) key (gapOf afterKey) slot, rest)
      else .error (.unexpectedInMapping d) := by
  obtain ⟨c, tail, hcs⟩ := List.exists_cons_of_ne_nil hnil
  have hc : c ≠ '\x7d' := by
    intro heq
    subst heq
    simp [hcs] at hclose
  rw [hcs] at hkey
  rw [pairsAt_eq, hcs]
  simp only [hc, if_false, hkey, hslot]

/-- A fault in an item is one of its sequence. -/
theorem itemsAt_of_error {cs : List Char} {fault : FlowFault} (hread : flowAt true cs = .error fault)
    (hnil : afterGap cs ≠ []) (hclose : (afterGap cs).head? ≠ some ']') : itemsAt cs = .error fault := by
  obtain ⟨c, tail, hcs⟩ := List.exists_cons_of_ne_nil hnil
  have hc : c ≠ ']' := by
    rintro rfl
    simp [hcs] at hclose
  have hinner : flowAt true (c :: tail) = .error fault := by rw [← hcs, flowAt_afterGap, hread]
  rw [itemsAt_eq, hcs]
  simp only [hc, if_false, hinner]

/-- A fault behind a key is one of its mapping. -/
theorem pairsAt_of_error {cs key afterKey : List Char} {fault : FlowFault}
    (hkey : keyAt (afterGap cs) = .ok (key, afterKey)) (hslot : slotAt (afterGap afterKey) = .error fault)
    (hnil : afterGap cs ≠ []) (hclose : (afterGap cs).head? ≠ some '\x7d') : pairsAt cs = .error fault := by
  obtain ⟨c, tail, hcs⟩ := List.exists_cons_of_ne_nil hnil
  have hc : c ≠ '\x7d' := by
    rintro rfl
    simp [hcs] at hclose
  rw [hcs] at hkey
  rw [pairsAt_eq, hcs]
  simp only [hc, if_false, hkey, hslot]

theorem flowAt_isPlain {cs : List Char} (h : IsPlain cs) (after : Spacing) {d : Char} (hd : endsPlain d = true)
    (rest : List Char) :
    ∃ left, flowAt true (cs ++ (after.text ++ d :: rest)) = .ok (.plain cs, left) ∧ afterGap left = d :: rest := by
  have hdgap : Text.isGap d = false := not_isGap_of_endsPlain hd
  have hafter := afterGap_append_cons after.isGap hdgap rest
  cases cs with
  | nil =>
    have hplain : plainText true (d :: rest) = [] := by simp [plainText, hd, Text.trimEnd, Text.trimStart]
    have hmark : d ≠ '!' ∧ d ≠ '[' ∧ d ≠ '\x7b' ∧ d ≠ '"' := by
      refine ⟨?_, ?_, ?_, ?_⟩ <;> rintro rfl <;> contradiction
    refine ⟨d :: rest, ?_, afterGap_cons hdgap rest⟩
    rw [List.nil_append, flowAt_eq, hafter]
    simp only [hmark, if_false, hplain]
    rfl
  | cons c cs =>
    have hstarts := h.starts
    simp only [startsPlain, Bool.and_eq_true, Bool.not_eq_true', List.contains_cons, Bool.or_eq_false_iff,
      beq_eq_false_iff_ne] at hstarts
    obtain ⟨hgap, hmark, hbracket, hbrace, hquote, -⟩ := hstarts
    have hplain : plainText true (c :: (cs ++ (after.text ++ d :: rest))) = c :: cs := by
      have htake : (c :: cs ++ (after.text ++ d :: rest)).takeWhile (fun c => !endsPlain c) =
          c :: cs ++ after.text := by
        rw [← List.append_assoc, List.takeWhile_append_of_pos, List.takeWhile_cons_of_neg (by simp [hd]), List.append_nil]
        intro e he
        obtain he | he := List.mem_append.1 he
        · simp [h.unbroken e he]
        · simp [not_endsPlain_of_isGap (after.isGap e he)]
      rw [plainText, if_pos rfl, ← List.cons_append, htake, Text.trimEnd_append_blank _ after.isBlank, h.ends]
    refine ⟨after.text ++ d :: rest, ?_, hafter⟩
    rw [List.cons_append, flowAt_eq, afterGap_cons hgap]
    simp only [hmark, hbracket, hbrace, hquote, if_false, hplain]
    rw [← List.cons_append, List.drop_left]

theorem flowAt_inQuotes {body : List Char} (h : staysQuoted body = true) (inFlow : Bool) (rest : List Char) :
    flowAt inFlow (inQuotes body ++ rest) = .ok (.quoted body, rest) := flowAt_quoted ⟨body, h⟩ inFlow rest

/-- A kept tag is read up to the space behind its name. -/
theorem flowAt_tagged {name : List Char} (hname : ∀ c ∈ name, isTagEnd c = false) (inFlow : Bool) (cs : List Char) :
    flowAt inFlow ('!' :: '!' :: (name ++ ' ' :: cs)) = mapRead (.kept ('!' :: '!' :: name)) (flowAt inFlow cs) := by
  have hkeep : ∀ c ∈ name, (!isTagEnd c) = true := fun c hc => by simp [hname c hc]
  have htake : (name ++ ' ' :: cs).takeWhile (fun c => !isTagEnd c) = name := by
    rw [List.takeWhile_append_of_pos hkeep, List.takeWhile_cons_of_neg (by decide), List.append_nil]
  have hdrop : (name ++ ' ' :: cs).dropWhile (fun c => !isTagEnd c) = ' ' :: cs := by
    rw [List.dropWhile_append_of_pos hkeep, List.dropWhile_cons_of_neg (by decide)]
  have hspace : flowAt inFlow (' ' :: cs) = flowAt inFlow cs := by
    rw [← flowAt_afterGap, ← flowAt_afterGap inFlow cs]
    rfl
  rw [flowAt_mark, tagAt_mark, htake, hdrop, hspace]

/-- A colon with nothing but spacing behind it. -/
theorem slotAt_of_endsSlot {gap : List Char} (hgap : ∀ c ∈ gap, Text.isGap c = true) {d : Char} {rest : List Char}
    (hd : Text.isGap d = false) (hends : endsSlot (d :: rest) = true) :
    slotAt (':' :: (gap ++ d :: rest)) = .ok (.empty gap, d :: rest) := by
  rw [slotAt_colon, afterGap_append_cons hgap hd, gapOf_append_cons hgap hd, if_pos hends]

structure ReadsFree (tags : Bool) (cs : List Char) : Prop where
  starts : ∀ c ∈ cs.head?, Text.isGap c = false ∧ endsPlain c = false
  reads (after : Spacing) {d : Char} (hd : endsPlain d = true) (rest : List Char) :
    ∃ value left, flowAt true (cs ++ (after.text ++ d :: rest)) = .ok (value, left) ∧ afterGap left = d :: rest ∧
      value.isCallFree tags = true

def ItemsFree (tags : Bool) (cs : List Char) : Prop :=
  ∀ rest, ∃ items, itemsAt (cs ++ rest) = .ok (items, rest) ∧ items.isCallFree tags = true

def PairsFree (tags : Bool) (cs : List Char) : Prop :=
  ∀ rest, ∃ pairs, pairsAt (cs ++ rest) = .ok (pairs, rest) ∧ pairs.isCallFree tags = true

structure EntryFree (tags : Bool) (cs : List Char) : Prop where
  starts : ∀ c ∈ cs.head?, Text.isGap c = false ∧ c ≠ '\x7d'
  reads {d : Char} (hd : d = ',' ∨ d = '\x7d') (rest : List Char) :
    ∃ key afterKey slot, keyAt (cs ++ d :: rest) = .ok (key, afterKey) ∧
      slotAt (afterGap afterKey) = .ok (slot, d :: rest) ∧ slot.isCallFree tags = true

namespace ReadsFree

variable {tags : Bool} {cs : List Char}

theorem afterGap_append (h : ReadsFree tags cs) (hne : cs ≠ []) (rest : List Char) :
    afterGap (cs ++ rest) = cs ++ rest := by
  refine afterGap_of_head fun c hc => ?_
  rw [List.head?_append_of_ne_nil _ hne] at hc
  exact (h.starts c hc).1

/-- An item is read, and then its sequence goes on behind the comma or ends. -/
theorem itemsAt_of_flowAt (h : ReadsFree tags cs) (before after : Spacing) {value : Flow} {left : List Char} {d : Char}
    {rest : List Char} (hd : endsPlain d = true)
    (hread : flowAt true (cs ++ (after.text ++ d :: rest)) = .ok (value, left)) (hleft : afterGap left = d :: rest)
    (hne : cs = [] → d ≠ ']') :
    ∃ gap gap', itemsAt (before.text ++ (cs ++ (after.text ++ d :: rest))) =
      if d = ',' then mapRead (.more gap value gap') (itemsAt rest)
      else if d = ']' then .ok (.last gap value gap', rest)
      else .error (.unexpectedInSequence d) := by
  have hgap : afterGap (before.text ++ (cs ++ (after.text ++ d :: rest))) =
      afterGap (cs ++ (after.text ++ d :: rest)) := Shorthand.afterGap_append before.isGap _
  have hinner : flowAt true (before.text ++ (cs ++ (after.text ++ d :: rest))) = .ok (value, left) := by
    rw [← flowAt_afterGap, hgap, flowAt_afterGap, hread]
  have hstart : afterGap (cs ++ (after.text ++ d :: rest)) ≠ [] ∧
      (afterGap (cs ++ (after.text ++ d :: rest))).head? ≠ some ']' := by
    cases cs with
    | nil =>
      rw [List.nil_append, afterGap_append_cons after.isGap (not_isGap_of_endsPlain hd)]
      exact ⟨List.cons_ne_nil _ _, by simpa using hne rfl⟩
    | cons c cs =>
      rw [h.afterGap_append (List.cons_ne_nil c cs)]
      refine ⟨List.cons_ne_nil _ _, fun hhead => ?_⟩
      cases hhead
      exact absurd (h.starts ']' rfl).2 (by decide)
  exact ⟨_, _, Shorthand.itemsAt_of_flowAt hinner hleft (hgap ▸ hstart.1) (hgap ▸ hstart.2)⟩

/-- A colon with a value behind it. -/
theorem slotAt_of_flowAt (h : ReadsFree tags cs) (hne : cs ≠ []) (after : Spacing) {tail left : List Char} {value : Flow}
    (hread : flowAt true (cs ++ tail) = .ok (value, left)) :
    slotAt (':' :: (after.text ++ (cs ++ tail))) =
      .ok (.filled (gapOf (after.text ++ (cs ++ tail))) value (gapOf left), afterGap left) := by
  have hstart : afterGap (after.text ++ (cs ++ tail)) = cs ++ tail := by
    rw [Shorthand.afterGap_append after.isGap, h.afterGap_append hne]
  have hfilled : endsSlot (cs ++ tail) = false := by
    obtain ⟨c, ds, rfl⟩ := List.exists_cons_of_ne_nil hne
    have hc := (h.starts c rfl).2
    simp only [endsPlain, Bool.or_eq_false_iff] at hc
    rw [List.cons_append, endsSlot, hc.1.1, hc.2]
    rfl
  rw [slotAt_colon, hstart, hfilled, hread]
  rfl

theorem plain (h : IsPlain cs) : ReadsFree tags cs where
  starts := by
    intro c hc
    obtain ⟨ds, rfl⟩ := List.head?_eq_some_iff.1 hc
    have hstarts := h.starts
    simp only [startsPlain, Bool.and_eq_true, Bool.not_eq_true'] at hstarts
    exact ⟨hstarts.1, h.unbroken c List.mem_cons_self⟩
  reads after d hd rest := by
    obtain ⟨left, hread, hleft⟩ := flowAt_isPlain h after hd rest
    exact ⟨_, left, hread, hleft, rfl⟩

theorem quoted {body : List Char} (h : staysQuoted body = true) : ReadsFree tags (inQuotes body) where
  starts := by rintro c ⟨⟩; exact ⟨rfl, rfl⟩
  reads after d hd rest :=
    ⟨_, _, flowAt_inQuotes h true _, afterGap_append_cons after.isGap (not_isGap_of_endsPlain hd) rest, rfl⟩

theorem tagged (htags : tags = true) {name : List Char} (hname : ∀ c ∈ name, isTagEnd c = false) (h : ReadsFree tags cs) :
    ReadsFree tags ('!' :: '!' :: (name ++ ' ' :: cs)) where
  starts := by rintro c ⟨⟩; exact ⟨rfl, rfl⟩
  reads after d hd rest := by
    obtain ⟨value, left, hread, hleft, hfree⟩ := h.reads after hd rest
    refine ⟨.kept ('!' :: '!' :: name) value, left, ?_, hleft, Bool.and_eq_true_iff.2 ⟨htags, hfree⟩⟩
    rw [List.cons_append, List.cons_append, List.append_assoc, List.cons_append, flowAt_tagged hname, hread]
    rfl

theorem sequence (h : ItemsFree tags cs) : ReadsFree tags ('[' :: cs) where
  starts := by rintro c ⟨⟩; exact ⟨rfl, rfl⟩
  reads after d hd rest := by
    obtain ⟨items, hread, hfree⟩ := h (after.text ++ d :: rest)
    refine ⟨.sequence items, _, ?_, afterGap_append_cons after.isGap (not_isGap_of_endsPlain hd) rest, hfree⟩
    rw [List.cons_append, flowAt_bracket, hread]
    rfl

theorem mapping (h : PairsFree tags cs) : ReadsFree tags ('\x7b' :: cs) where
  starts := by rintro c ⟨⟩; exact ⟨rfl, rfl⟩
  reads after d hd rest := by
    obtain ⟨pairs, hread, hfree⟩ := h (after.text ++ d :: rest)
    refine ⟨.mapping pairs, _, ?_, afterGap_append_cons after.isGap (not_isGap_of_endsPlain hd) rest, hfree⟩
    rw [List.cons_append, flowAt_brace, hread]
    rfl

end ReadsFree

namespace ItemsFree

variable {tags : Bool} {cs : List Char}

theorem close (gap : Spacing) : ItemsFree tags (gap.text ++ [']']) := by
  intro rest
  refine ⟨.close gap.text, ?_, rfl⟩
  rw [List.append_assoc, List.singleton_append, itemsAt_close gap.isGap]

theorem last (before : Spacing) (h : ReadsFree tags cs) (after : Spacing) :
    ItemsFree tags (before.text ++ (cs ++ (after.text ++ [']']))) := by
  by_cases hcs : cs = []
  · subst hcs
    have hgap : ∀ c ∈ before.text ++ after.text, Text.isGap c = true :=
      fun c hc => (List.mem_append.1 hc).elim (before.isGap c) (after.isGap c)
    rw [List.nil_append, ← List.append_assoc]
    exact close ⟨before.text ++ after.text, hgap⟩
  · intro rest
    obtain ⟨value, left, hread, hleft, hfree⟩ := h.reads after (d := ']') rfl rest
    obtain ⟨gap, gap', hitems⟩ := h.itemsAt_of_flowAt before after rfl hread hleft fun h => absurd h hcs
    exact ⟨.last gap value gap', by simpa using hitems, hfree⟩

theorem more (before : Spacing) (h : ReadsFree tags cs) (after : Spacing) {rest : List Char} (hrest : ItemsFree tags rest) :
    ItemsFree tags (before.text ++ (cs ++ (after.text ++ ',' :: rest))) := by
  intro behind
  obtain ⟨value, left, hread, hleft, hfree⟩ := h.reads after (d := ',') rfl (rest ++ behind)
  obtain ⟨items, hitems, hrest⟩ := hrest behind
  obtain ⟨gap, gap', hmore⟩ := h.itemsAt_of_flowAt before after rfl hread hleft fun _ => by decide
  refine ⟨.more gap value gap' items, ?_, by simp [Items.isCallFree, hfree, hrest]⟩
  simp only [List.append_assoc, List.cons_append]
  rw [hmore, if_pos rfl, hitems]
  rfl

end ItemsFree

theorem EntryFree.afterGap_append {tags : Bool} {cs : List Char} (h : EntryFree tags cs) {d : Char}
    (hd : Text.isGap d = false) (rest : List Char) : afterGap (cs ++ d :: rest) = cs ++ d :: rest :=
  afterGap_of_head (forall_head_append (fun c hc => (h.starts c hc).1) hd rest)

/-- An entry is read, and then its mapping goes on behind the comma or ends. -/
theorem EntryFree.pairsAt_of_slotAt {tags : Bool} {cs : List Char} (h : EntryFree tags cs) (before : Spacing)
    {key afterKey : List Char} {slot : Slot} {d : Char} {rest : List Char} (hd : Text.isGap d = false)
    (hkey : keyAt (cs ++ d :: rest) = .ok (key, afterKey))
    (hslot : slotAt (afterGap afterKey) = .ok (slot, d :: rest)) (hne : cs = [] → d ≠ '\x7d') :
    ∃ gap gap', pairsAt (before.text ++ (cs ++ d :: rest)) =
      if d = ',' then mapRead (.more gap key gap' slot) (pairsAt rest)
      else if d = '\x7d' then .ok (.last gap key gap' slot, rest)
      else .error (.unexpectedInMapping d) := by
  have hgap : afterGap (before.text ++ (cs ++ d :: rest)) = cs ++ d :: rest := by
    rw [Shorthand.afterGap_append before.isGap, h.afterGap_append hd]
  have hhead : (cs ++ d :: rest).head? ≠ some '\x7d' := by
    intro hhead
    cases cs with
    | nil => exact hne rfl (Option.some.inj hhead)
    | cons c cs => exact (h.starts '\x7d' hhead).2 rfl
  exact ⟨_, _, Shorthand.pairsAt_of_slotAt (by rw [hgap, hkey]) hslot (by simp [hgap]) (by rw [hgap]; exact hhead)⟩

namespace PairsFree

variable {tags : Bool} {cs : List Char}

theorem close (gap : Spacing) : PairsFree tags (gap.text ++ ['\x7d']) := by
  intro rest
  refine ⟨.close gap.text, ?_, rfl⟩
  rw [List.append_assoc, List.singleton_append, pairsAt_close gap.isGap]

theorem last (before : Spacing) (h : EntryFree tags cs) : PairsFree tags (before.text ++ (cs ++ ['\x7d'])) := by
  by_cases hcs : cs = []
  · subst hcs
    exact close before
  · intro rest
    obtain ⟨key, afterKey, slot, hkey, hslot, hfree⟩ := h.reads (.inr rfl) rest
    obtain ⟨gap, gap', hpairs⟩ := h.pairsAt_of_slotAt before rfl hkey hslot fun h => absurd h hcs
    exact ⟨.last gap key gap' slot, by simpa using hpairs, hfree⟩

theorem more (before : Spacing) (h : EntryFree tags cs) {rest : List Char} (hrest : PairsFree tags rest) :
    PairsFree tags (before.text ++ (cs ++ ',' :: rest)) := by
  intro behind
  obtain ⟨key, afterKey, slot, hkey, hslot, hfree⟩ := h.reads (.inl rfl) (rest ++ behind)
  obtain ⟨pairs, hpairs, hrest⟩ := hrest behind
  obtain ⟨gap, gap', hmore⟩ := h.pairsAt_of_slotAt before rfl hkey hslot fun _ => by decide
  refine ⟨.more gap key gap' slot pairs, ?_, by simp [Pairs.isCallFree, hfree, hrest]⟩
  simp only [List.append_assoc, List.cons_append]
  rw [hmore, if_pos rfl, hpairs]
  rfl

end PairsFree

namespace EntryFree

variable {tags : Bool} {key gap : List Char}

theorem bare (h : IsKey key gap) (hcolon : (key ++ gap).getLast? ≠ some ':') : EntryFree tags (key ++ gap) where
  starts := h.starts
  reads {d} hd rest := by
    have hne : d ≠ ':' := by obtain rfl | rfl := hd <;> decide
    have hgap : Text.isGap d = false := by obtain rfl | rfl := hd <;> rfl
    refine ⟨key, gap ++ d :: rest, .bare, by rw [List.append_assoc, h.keyAt_end hcolon hd], ?_, rfl⟩
    rw [afterGap_append_cons h.isGap hgap, slotAt_bare (by simpa using hne)]

theorem empty (h : IsKey key gap) (after : Spacing) (happart : isApart key after.text || after.text.isEmpty) :
    EntryFree tags (key ++ (gap ++ ':' :: after.text)) where
  starts := h.starts_append (by decide) after.text
  reads {d} hd rest := by
    have hgap : Text.isGap d = false := by obtain rfl | rfl := hd <;> rfl
    have hends : endsSlot (d :: rest) = true := by obtain rfl | rfl := hd <;> rfl
    refine ⟨key, gap ++ ':' :: (after.text ++ d :: rest), .empty after.text, ?_, ?_, rfl⟩
    · rw [List.append_assoc, List.append_assoc, List.cons_append, h.keyAt_colon_end happart hd]
    · rw [afterGap_append_cons h.isGap rfl, slotAt_of_endsSlot after.isGap hgap hends]

theorem filled (h : IsKey key gap) (after : Spacing) (happart : isApart key after.text = true) {cs : List Char}
    (hvalue : ReadsFree tags cs) (final : Spacing) :
    EntryFree tags (key ++ (gap ++ ':' :: (after.text ++ (cs ++ final.text)))) where
  starts := h.starts_append (by decide) _
  reads {d} hd rest := by
    have hends : endsPlain d = true := by obtain rfl | rfl := hd <;> rfl
    have hkey := h.keyAt_colon happart (cs ++ (final.text ++ d :: rest))
    have hgaps : afterGap (gap ++ ':' :: (after.text ++ (cs ++ (final.text ++ d :: rest)))) =
        ':' :: (after.text ++ (cs ++ (final.text ++ d :: rest))) := by
      rw [afterGap_append_cons h.isGap rfl]
    have htext : key ++ (gap ++ ':' :: (after.text ++ (cs ++ final.text))) ++ d :: rest =
        key ++ (gap ++ ':' :: (after.text ++ (cs ++ (final.text ++ d :: rest)))) := by simp
    rw [htext]
    by_cases hcs : cs = []
    · subst hcs
      have hspaces : ∀ c ∈ after.text ++ final.text, Text.isGap c = true :=
        fun c hc => (List.mem_append.1 hc).elim (after.isGap c) (final.isGap c)
      have hslot : endsSlot (d :: rest) = true := by obtain rfl | rfl := hd <;> rfl
      refine ⟨key, _, .empty (after.text ++ final.text), hkey, ?_, rfl⟩
      rw [hgaps, List.nil_append, ← List.append_assoc, slotAt_of_endsSlot hspaces (not_isGap_of_endsPlain hends) hslot]
    · obtain ⟨value, left, hread, hleft, hfree⟩ := hvalue.reads final hends rest
      refine ⟨key, _, .filled (gapOf (after.text ++ (cs ++ (final.text ++ d :: rest)))) value (gapOf left), hkey, ?_,
        hfree⟩
      rw [hgaps, hvalue.slotAt_of_flowAt hcs after hread, hleft]

end EntryFree

mutual

theorem FlowText.readsFree {tags : Bool} {cs : List Char} (h : FlowText tags cs) : ReadsFree tags cs := by
  cases h with
  | plain h => exact .plain h
  | quoted h => exact .quoted h
  | tagged htags hname _ h => exact .tagged htags hname h.readsFree
  | sequence h => exact .sequence h.itemsFree
  | mapping h => exact .mapping h.pairsFree
termination_by cs.length
decreasing_by all_goals (simp only [List.length_append, List.length_cons]; omega)

theorem ItemText.itemsFree {tags : Bool} {cs : List Char} (h : ItemText tags cs) : ItemsFree tags cs := by
  cases h with
  | close gap => exact .close gap
  | last before h after => exact .last before h.readsFree after
  | more before h after hrest => exact .more before h.readsFree after hrest.itemsFree
termination_by cs.length
decreasing_by all_goals (simp only [List.length_append, List.length_cons]; omega)

theorem PairText.pairsFree {tags : Bool} {cs : List Char} (h : PairText tags cs) : PairsFree tags cs := by
  cases h with
  | close gap => exact .close gap
  | last before h => exact .last before h.entryFree
  | more before h hrest => exact .more before h.entryFree hrest.pairsFree
termination_by cs.length
decreasing_by all_goals (simp only [List.length_append, List.length_cons]; omega)

theorem EntryText.entryFree {tags : Bool} {cs : List Char} (h : EntryText tags cs) : EntryFree tags cs := by
  cases h with
  | bare h hcolon => exact .bare h.isKey hcolon
  | empty h after happart => exact .empty h.isKey after happart
  | filled h after happart hvalue final => exact .filled h.isKey after happart hvalue.readsFree final
termination_by cs.length
decreasing_by all_goals (simp only [List.length_append, List.length_cons]; omega)

end

theorem Spacing.not_mem_lineFeed (spacing : Spacing) : '\n' ∉ spacing.text :=
  fun h => absurd (spacing.isGap '\n' h) (by decide)

theorem not_mem_inQuotes {body : List Char} (h : '\n' ∉ body) : '\n' ∉ inQuotes body := by simp [inQuotes, h]

theorem KeyText.not_mem_lineFeed {key gap : List Char} (h : KeyText key gap) : '\n' ∉ key ∧ '\n' ∉ gap := by
  cases h with
  | quoted _ hline gap => exact ⟨not_mem_inQuotes hline, gap.not_mem_lineFeed⟩
  | plain gap _ _ _ hline => exact ⟨hline, gap.not_mem_lineFeed⟩

mutual

theorem FlowText.not_mem_lineFeed {tags : Bool} {cs : List Char} (h : FlowText tags cs) : '\n' ∉ cs := by
  cases h with
  | plain _ hline => exact hline
  | quoted _ hline => exact not_mem_inQuotes hline
  | tagged _ _ hline h => simp [hline, h.not_mem_lineFeed]
  | sequence h => simp [h.not_mem_lineFeed]
  | mapping h => simp [h.not_mem_lineFeed]
termination_by cs.length
decreasing_by all_goals (simp only [List.length_append, List.length_cons]; omega)

theorem ItemText.not_mem_lineFeed {tags : Bool} {cs : List Char} (h : ItemText tags cs) : '\n' ∉ cs := by
  cases h with
  | close gap => simp [gap.not_mem_lineFeed]
  | last before h after => simp [before.not_mem_lineFeed, h.not_mem_lineFeed, after.not_mem_lineFeed]
  | more before h after hrest =>
    simp [before.not_mem_lineFeed, h.not_mem_lineFeed, after.not_mem_lineFeed, hrest.not_mem_lineFeed]
termination_by cs.length
decreasing_by all_goals (simp only [List.length_append, List.length_cons]; omega)

theorem PairText.not_mem_lineFeed {tags : Bool} {cs : List Char} (h : PairText tags cs) : '\n' ∉ cs := by
  cases h with
  | close gap => simp [gap.not_mem_lineFeed]
  | last before h => simp [before.not_mem_lineFeed, h.not_mem_lineFeed]
  | more before h hrest => simp [before.not_mem_lineFeed, h.not_mem_lineFeed, hrest.not_mem_lineFeed]
termination_by cs.length
decreasing_by all_goals (simp only [List.length_append, List.length_cons]; omega)

theorem EntryText.not_mem_lineFeed {tags : Bool} {cs : List Char} (h : EntryText tags cs) : '\n' ∉ cs := by
  cases h with
  | bare h => simp [h.not_mem_lineFeed]
  | empty h after => simp [h.not_mem_lineFeed, after.not_mem_lineFeed]
  | filled h after _ hvalue final =>
    simp [h.not_mem_lineFeed, after.not_mem_lineFeed, hvalue.not_mem_lineFeed, final.not_mem_lineFeed]
termination_by cs.length
decreasing_by all_goals (simp only [List.length_append, List.length_cons]; omega)

end

def IsClosed (cs : List Char) : Prop :=
  ∀ inFlow rest, ∃ value, flowAt inFlow (cs ++ rest) = .ok (value, rest) ∧ value.isCallFree true = true

theorem isClosed_inQuotes {body : List Char} (h : staysQuoted body = true) : IsClosed (inQuotes body) :=
  fun inFlow rest => ⟨_, flowAt_inQuotes h inFlow rest, rfl⟩

theorem isClosed_sequence {cs : List Char} (h : ItemText true cs) : IsClosed ('[' :: cs) := by
  intro inFlow rest
  obtain ⟨items, hread, hfree⟩ := h.itemsFree rest
  refine ⟨.sequence items, ?_, hfree⟩
  rw [List.cons_append, flowAt_bracket, hread]
  rfl

theorem isClosed_mapping {cs : List Char} (h : PairText true cs) : IsClosed ('\x7b' :: cs) := by
  intro inFlow rest
  obtain ⟨pairs, hread, hfree⟩ := h.pairsFree rest
  refine ⟨.mapping pairs, ?_, hfree⟩
  rw [List.cons_append, flowAt_brace, hread]
  rfl

theorem isClosed_tagged {name cs : List Char} (hname : ∀ c ∈ name, isTagEnd c = false) (h : IsClosed cs) :
    IsClosed ('!' :: '!' :: (name ++ ' ' :: cs)) := by
  intro inFlow rest
  obtain ⟨value, hread, hfree⟩ := h inFlow rest
  refine ⟨.kept ('!' :: '!' :: name) value, ?_, hfree⟩
  rw [List.cons_append, List.cons_append, List.append_assoc, List.cons_append, flowAt_tagged hname, hread]
  rfl

end CloudTemplate.Shorthand
