import CloudTemplate.Proofs.Shorthand.Inert
/-! Reading what has been written out. The texts that values are written as are read as they stand, so writing them
out once more changes nothing. Each way to put such texts together keeps that, as long as a kept tag has a value. -/
namespace CloudTemplate.Shorthand

theorem gapOf_append_afterGap (cs : List Char) : gapOf cs ++ afterGap cs = cs := List.takeWhile_append_dropWhile

theorem plainText_append_drop (inFlow : Bool) (cs : List Char) :
    plainText inFlow cs ++ cs.drop (plainText inFlow cs).length = cs := by
  have hinitial : plainText inFlow cs <+: cs := by
    refine (Text.prefix_trimEnd _).trans ?_
    split
    · exact List.takeWhile_prefix _
    · exact List.prefix_rfl
  exact List.prefix_iff_eq_append.1 hinitial

/-- A text by its gap, a value, the gap behind that and what follows. -/
theorem eq_of_afterGap {cs source after tail : List Char} (h : afterGap cs = source ++ after)
    (hafter : afterGap after = tail) : cs = gapOf cs ++ source ++ gapOf after ++ tail :=
  calc cs = gapOf cs ++ (source ++ (gapOf after ++ afterGap after)) := by
        rw [gapOf_append_afterGap, ← h, gapOf_append_afterGap]
    _ = gapOf cs ++ source ++ gapOf after ++ tail := by rw [hafter]; simp only [List.append_assoc]

/-- A text by its gap, a key, the gap behind that and what follows the key. -/
theorem eq_of_keyAt {cs key afterKey source after : List Char} (hkey : keyAt (afterGap cs) = .ok (key, afterKey))
    (hslot : afterGap afterKey = source ++ after) : cs = gapOf cs ++ key ++ gapOf afterKey ++ source ++ after :=
  calc cs = gapOf cs ++ (key ++ (gapOf afterKey ++ afterGap afterKey)) := by
        rw [gapOf_append_afterGap, keyAt_append_rest hkey, gapOf_append_afterGap]
    _ = gapOf cs ++ key ++ gapOf afterKey ++ source ++ after := by rw [hslot]; simp only [List.append_assoc]

theorem text_append_of_scalar {inFlow : Bool} {cs left : List Char} {value : Flow}
    (h : flowAt inFlow cs = .ok (value, left)) (hscalar : (∃ text, value = .plain text) ∨ ∃ text, value = .quoted text) :
    gapOf cs ++ (value.fragment.text ++ left) = cs := by
  have hgap := gapOf_append_afterGap cs
  obtain ⟨text, rfl⟩ | ⟨text, rfl⟩ := hscalar
  · cases flowAt_ok h with
    | nothing hnil => rwa [hnil] at hgap
    | plain =>
      rw [Flow.fragment, Fragment.text, plainText_append_drop]
      exact hgap
  · cases flowAt_ok h with
    | quoted hcs hclose =>
      rw [hcs, (closeQuote_ok hclose).2] at hgap
      simpa [Flow.fragment, Fragment.text, inQuotes] using hgap

structure ReadsBack (cs : List Char) : Prop where
  flowText : FlowText true cs
  same {after : Spacing} {d : Char} {rest left : List Char} {value : Flow} (hd : endsPlain d = true)
    (h : flowAt true (cs ++ (after.text ++ d :: rest)) = .ok (value, left)) :
    gapOf (cs ++ (after.text ++ d :: rest)) ++ (value.fragment.text ++ left) = cs ++ (after.text ++ d :: rest)

structure ItemsBack (cs : List Char) : Prop where
  itemText : ItemText true cs
  same {rest left : List Char} {items : Items} (h : itemsAt (cs ++ rest) = .ok (items, left)) :
    items.text ++ left = cs ++ rest

structure PairsBack (cs : List Char) : Prop where
  pairText : PairText true cs
  same {rest left : List Char} {pairs : Pairs} (h : pairsAt (cs ++ rest) = .ok (pairs, left)) :
    pairs.text ++ left = cs ++ rest

structure EntryBack (cs : List Char) : Prop where
  entryText : EntryText true cs
  same {d : Char} {rest key afterKey left : List Char} {slot : Slot} (hd : d = ',' ∨ d = '\x7d')
    (hkey : keyAt (cs ++ d :: rest) = .ok (key, afterKey)) (h : slotAt (afterGap afterKey) = .ok (slot, left)) :
    key ++ (gapOf afterKey ++ (slot.text ++ left)) = cs ++ d :: rest

namespace ReadsBack

variable {cs : List Char}

theorem plain (h : IsPlain cs) (hline : '\n' ∉ cs) : ReadsBack cs where
  flowText := .plain h hline
  same {after d rest left value} hd hread := by
    obtain ⟨behind, hplain, -⟩ := flowAt_isPlain h after hd rest
    refine text_append_of_scalar hread (.inl ⟨cs, ?_⟩)
    rw [hplain] at hread
    exact (congrArg Prod.fst (Except.ok.inj hread)).symm

theorem quoted {body : List Char} (h : staysQuoted body = true) (hline : '\n' ∉ body) : ReadsBack (inQuotes body) where
  flowText := .quoted h hline
  same hd hread := by
    refine text_append_of_scalar hread (.inr ⟨body, ?_⟩)
    rw [flowAt_inQuotes h] at hread
    exact (congrArg Prod.fst (Except.ok.inj hread)).symm

theorem gapOf_append (h : ReadsBack cs) (hne : cs ≠ []) (rest : List Char) : gapOf (cs ++ rest) = [] := by
  have hgap := gapOf_append_afterGap (cs ++ rest)
  rwa [h.flowText.readsFree.afterGap_append hne, List.append_left_eq_self] at hgap

theorem tagged (h : ReadsBack cs) (hne : cs ≠ []) {name : List Char} (hname : ∀ c ∈ name, isTagEnd c = false)
    (hline : '\n' ∉ name) : ReadsBack ('!' :: '!' :: (name ++ ' ' :: cs)) where
  flowText := .tagged rfl hname hline h.flowText
  same {after d rest left value} hd hread := by
    rw [List.cons_append, List.cons_append, List.append_assoc, List.cons_append, flowAt_tagged hname] at hread
    obtain ⟨inner, hinner, rfl⟩ := mapRead_ok hread
    have hsame := h.same hd hinner
    rw [h.gapOf_append hne, List.nil_append] at hsame
    have htext : (Flow.kept ('!' :: '!' :: name) inner).fragment.text = '!' :: '!' :: (name ++ ' ' :: inner.fragment.text) :=
      rfl
    rw [htext, List.cons_append, gapOf_cons rfl]
    simp [hsame]

/-- An item or a value of a slot, with the spacing around it. -/
theorem same_of_spacing (h : ReadsBack cs) {before after : Spacing} {d : Char} {rest left : List Char} {value : Flow}
    (hd : endsPlain d = true)
    (hread : flowAt true (afterGap (before.text ++ (cs ++ (after.text ++ d :: rest)))) = .ok (value, left)) :
    gapOf (before.text ++ (cs ++ (after.text ++ d :: rest))) ++ (value.fragment.text ++ left) =
        before.text ++ (cs ++ (after.text ++ d :: rest)) ∧ afterGap left = d :: rest := by
  rw [Shorthand.afterGap_append before.isGap, flowAt_afterGap] at hread
  obtain ⟨value', left', hread', hleft, -⟩ := h.flowText.readsFree.reads after hd rest
  have hsame := h.same hd hread
  rw [hread'] at hread
  cases hread
  rw [Shorthand.gapOf_append before.isGap, List.append_assoc, hsame]
  exact ⟨rfl, hleft⟩

end ReadsBack

section Parts

variable {cs after rest left : List Char}

theorem Items.text_append_close (h : afterGap cs = ']' :: left) : (Items.close (gapOf cs)).text ++ left = cs := by
  have hgap := gapOf_append_afterGap cs
  rw [h] at hgap
  simpa [Items.text] using hgap

theorem Items.text_append_last {value : Flow} (hvalue : gapOf cs ++ (value.fragment.text ++ after) = cs)
    (hafter : afterGap after = ']' :: left) : (Items.last (gapOf cs) value (gapOf after)).text ++ left = cs :=
  calc (Items.last (gapOf cs) value (gapOf after)).text ++ left
      = gapOf cs ++ (value.fragment.text ++ (gapOf after ++ ']' :: left)) := by simp [Items.text]
    _ = cs := by rw [← hafter, gapOf_append_afterGap, hvalue]

theorem Items.text_append_more {value : Flow} {others : Items} (hvalue : gapOf cs ++ (value.fragment.text ++ after) = cs)
    (hafter : afterGap after = ',' :: rest) (hothers : others.text ++ left = rest) :
    (Items.more (gapOf cs) value (gapOf after) others).text ++ left = cs :=
  calc (Items.more (gapOf cs) value (gapOf after) others).text ++ left
      = gapOf cs ++ (value.fragment.text ++ (gapOf after ++ ',' :: (others.text ++ left))) := by simp [Items.text]
    _ = cs := by rw [hothers, ← hafter, gapOf_append_afterGap, hvalue]

/-- Items are written as they are read if the first of them and those behind its comma are. -/
theorem Items.text_append {items : Items}
    (hvalue : ∀ value after, flowAt true (afterGap cs) = .ok (value, after) →
      gapOf cs ++ (value.fragment.text ++ after) = cs)
    (hrest : ∀ value after rest others, flowAt true (afterGap cs) = .ok (value, after) → afterGap after = ',' :: rest →
      itemsAt rest = .ok (others, left) → others.text ++ left = rest)
    (h : itemsAt cs = .ok (items, left)) : items.text ++ left = cs := by
  cases itemsAt_ok h with
  | close hcs => exact Items.text_append_close hcs
  | last hread hafter => exact Items.text_append_last (hvalue _ _ hread) hafter
  | more hread hafter hothers =>
    exact Items.text_append_more (hvalue _ _ hread) hafter (hrest _ _ _ _ hread hafter hothers)

theorem Pairs.text_append_close (h : afterGap cs = '\x7d' :: left) : (Pairs.close (gapOf cs)).text ++ left = cs := by
  have hgap := gapOf_append_afterGap cs
  rw [h] at hgap
  simpa [Pairs.text] using hgap

theorem Pairs.text_append_last {key afterKey : List Char} {slot : Slot}
    (hentry : key ++ (gapOf afterKey ++ (slot.text ++ '\x7d' :: left)) = afterGap cs) :
    (Pairs.last (gapOf cs) key (gapOf afterKey) slot).text ++ left = cs :=
  calc (Pairs.last (gapOf cs) key (gapOf afterKey) slot).text ++ left
      = gapOf cs ++ (key ++ (gapOf afterKey ++ (slot.text ++ '\x7d' :: left))) := by simp [Pairs.text]
    _ = cs := by rw [hentry, gapOf_append_afterGap]

theorem Pairs.text_append_more {key afterKey : List Char} {slot : Slot} {others : Pairs}
    (hentry : key ++ (gapOf afterKey ++ (slot.text ++ ',' :: rest)) = afterGap cs) (hothers : others.text ++ left = rest) :
    (Pairs.more (gapOf cs) key (gapOf afterKey) slot others).text ++ left = cs :=
  calc (Pairs.more (gapOf cs) key (gapOf afterKey) slot others).text ++ left
      = gapOf cs ++ (key ++ (gapOf afterKey ++ (slot.text ++ ',' :: (others.text ++ left)))) := by simp [Pairs.text]
    _ = cs := by rw [hothers, hentry, gapOf_append_afterGap]

theorem Pairs.text_append {pairs : Pairs}
    (hentry : ∀ key afterKey slot after, keyAt (afterGap cs) = .ok (key, afterKey) →
      slotAt (afterGap afterKey) = .ok (slot, after) → key ++ (gapOf afterKey ++ (slot.text ++ after)) = afterGap cs)
    (hrest : ∀ key afterKey slot rest others, keyAt (afterGap cs) = .ok (key, afterKey) →
      slotAt (afterGap afterKey) = .ok (slot, ',' :: rest) → pairsAt rest = .ok (others, left) →
        others.text ++ left = rest)
    (h : pairsAt cs = .ok (pairs, left)) : pairs.text ++ left = cs := by
  cases pairsAt_ok h with
  | close hcs => exact Pairs.text_append_close hcs
  | last hkey hslot => exact Pairs.text_append_last (hentry _ _ _ _ hkey hslot)
  | more hkey hslot hothers =>
    exact Pairs.text_append_more (hentry _ _ _ _ hkey hslot) (hrest _ _ _ _ _ hkey hslot hothers)

end Parts

theorem ItemsBack.last (before : Spacing) {cs : List Char} (h : ReadsBack cs) (after : Spacing) :
    ItemsBack (before.text ++ (cs ++ (after.text ++ [']']))) where
  itemText := .last before h.flowText after
  same {rest left items} hread := by
    simp only [List.append_assoc, List.singleton_append] at hread ⊢
    refine Items.text_append (fun value after hvalue => (h.same_of_spacing rfl hvalue).1) ?_ hread
    intro value behind tail others hvalue hcomma _
    rw [(h.same_of_spacing rfl hvalue).2] at hcomma
    exact absurd (List.head_eq_of_cons_eq hcomma) (by decide)

theorem ItemsBack.more (before : Spacing) {cs : List Char} (h : ReadsBack cs) (after : Spacing) {rest : List Char}
    (hrest : ItemsBack rest) : ItemsBack (before.text ++ (cs ++ (after.text ++ ',' :: rest))) where
  itemText := .more before h.flowText after hrest.itemText
  same {rest' left items} hread := by
    simp only [List.append_assoc, List.cons_append] at hread ⊢
    refine Items.text_append (fun value after hvalue => (h.same_of_spacing rfl hvalue).1) ?_ hread
    intro value behind tail others hvalue hcomma hothers
    rw [(h.same_of_spacing rfl hvalue).2] at hcomma
    cases hcomma
    exact hrest.same hothers

theorem PairsBack.last (before : Spacing) {cs : List Char} (h : EntryBack cs) :
    PairsBack (before.text ++ (cs ++ ['\x7d'])) where
  pairText := .last before h.entryText
  same {rest left pairs} hread := by
    simp only [List.append_assoc, List.singleton_append] at hread ⊢
    have hgap : afterGap (before.text ++ (cs ++ '\x7d' :: rest)) = cs ++ '\x7d' :: rest := by
      rw [afterGap_append before.isGap, h.entryText.entryFree.afterGap_append rfl]
    refine Pairs.text_append (fun key afterKey slot after hkey hslot => ?_) ?_ hread
    · rw [hgap] at hkey ⊢
      exact h.same (.inr rfl) hkey hslot
    · intro key afterKey slot tail others hkey hslot _
      obtain ⟨key', afterKey', slot', hkey', hslot', -⟩ := h.entryText.entryFree.reads (.inr rfl) rest
      rw [hgap, hkey'] at hkey
      cases hkey
      rw [hslot'] at hslot
      exact absurd (congrArg Prod.snd (Except.ok.inj hslot)) (by simp)

theorem PairsBack.more (before : Spacing) {cs : List Char} (h : EntryBack cs) {rest : List Char}
    (hrest : PairsBack rest) : PairsBack (before.text ++ (cs ++ ',' :: rest)) where
  pairText := .more before h.entryText hrest.pairText
  same {rest' left pairs} hread := by
    simp only [List.append_assoc, List.cons_append] at hread ⊢
    have hgap : afterGap (before.text ++ (cs ++ ',' :: (rest ++ rest'))) = cs ++ ',' :: (rest ++ rest') := by
      rw [afterGap_append before.isGap, h.entryText.entryFree.afterGap_append rfl]
    refine Pairs.text_append (fun key afterKey slot after hkey hslot => ?_) ?_ hread
    · rw [hgap] at hkey ⊢
      exact h.same (.inl rfl) hkey hslot
    · intro key afterKey slot tail others hkey hslot hothers
      obtain ⟨key', afterKey', slot', hkey', hslot', -⟩ := h.entryText.entryFree.reads (.inl rfl) (rest ++ rest')
      rw [hgap, hkey'] at hkey
      cases hkey
      rw [hslot'] at hslot
      cases hslot
      exact hrest.same hothers

namespace EntryBack

theorem text_append {cs key afterKey left : List Char} {slot : Slot} (hkey : keyAt cs = .ok (key, afterKey))
    (hslot : slot.text ++ left = afterGap afterKey) : key ++ (gapOf afterKey ++ (slot.text ++ left)) = cs := by
  rw [hslot, gapOf_append_afterGap, keyAt_append_rest hkey]

variable {key gap : List Char}

theorem bare (h : KeyText key gap) (hcolon : (key ++ gap).getLast? ≠ some ':') : EntryBack (key ++ gap) where
  entryText := .bare h hcolon
  same {d rest key' afterKey left slot} hd hkey hslot := by
    have hne : d ≠ ':' := by obtain rfl | rfl := hd <;> decide
    have hgap : Text.isGap d = false := by obtain rfl | rfl := hd <;> rfl
    refine text_append hkey ?_
    rw [List.append_assoc, h.isKey.keyAt_end hcolon hd] at hkey
    cases hkey
    rw [afterGap_append_cons h.isKey.isGap hgap] at hslot ⊢
    rw [slotAt_bare (by simpa using hne)] at hslot
    cases hslot
    rfl

theorem empty (h : KeyText key gap) (after : Spacing) (happart : isApart key after.text || after.text.isEmpty) :
    EntryBack (key ++ (gap ++ ':' :: after.text)) where
  entryText := .empty h after happart
  same {d rest key' afterKey left slot} hd hkey hslot := by
    have hgap : Text.isGap d = false := by obtain rfl | rfl := hd <;> rfl
    have hends : endsSlot (d :: rest) = true := by obtain rfl | rfl := hd <;> rfl
    refine text_append hkey ?_
    rw [List.append_assoc, List.append_assoc, List.cons_append, h.isKey.keyAt_colon_end happart hd] at hkey
    cases hkey
    rw [afterGap_append_cons h.isKey.isGap rfl] at hslot ⊢
    rw [slotAt_of_endsSlot after.isGap hgap hends] at hslot
    cases hslot
    rfl

theorem filled (h : KeyText key gap) (after : Spacing) (happart : isApart key after.text = true) {cs : List Char}
    (hvalue : ReadsBack cs) (final : Spacing) :
    EntryBack (key ++ (gap ++ ':' :: (after.text ++ (cs ++ final.text)))) where
  entryText := .filled h after happart hvalue.flowText final
  same {d rest key' afterKey left slot} hd hkey hslot := by
    have hends : endsPlain d = true := by obtain rfl | rfl := hd <;> rfl
    refine text_append hkey ?_
    simp only [List.append_assoc, List.cons_append] at hkey
    rw [h.isKey.keyAt_colon happart] at hkey
    cases hkey
    rw [afterGap_append_cons h.isKey.isGap rfl] at hslot ⊢
    cases slotAt_ok hslot with
    | bare hcolon => exact absurd rfl hcolon
    | empty _ hleft => rw [← hleft, Slot.text, List.cons_append, gapOf_append_afterGap]
    | @filled _ behind _ value _ hread hleft =>
      have hsame := (hvalue.same_of_spacing hends hread).1
      simp only [Slot.text, List.cons_append, List.append_assoc, ← hleft, gapOf_append_afterGap, hsame]

end EntryBack

/-- Whether a tag may be kept before a value: it closes what it opens, and behind a space the value stays what it is. -/
def staysTagged (name : List Char) (value : Flow) : Bool :=
  closesItself name && value.fragment.text.head?.any (· != '#')

theorem ne_nil_of_staysTagged {name : List Char} {value : Flow} (h : staysTagged name value = true) :
    value.fragment.text ≠ [] := by
  intro hnil
  rw [staysTagged, hnil, Bool.and_eq_true] at h
  exact absurd h.2 (by simp)

def Grammar.back : Grammar where
  IsValue := ReadsBack
  IsItems := ItemsBack
  IsPairs := PairsBack
  IsEntry := EntryBack
  keeps := staysTagged
  admits c := c != '\n'
  admits_added := ne_lineFeed_of_isAdded
  plain h hover := .plain h (forall_ne_lineFeed_iff.1 hover)
  quoted h hover := .quoted h (forall_ne_lineFeed_iff.1 hover)
  tagged htag hname hover h := h.tagged (ne_nil_of_staysTagged htag) hname (forall_ne_lineFeed_iff.1 hover)
  sequence {cs} h :=
    { flowText := .sequence h.itemText
      same := fun {after d rest left value} _ hread => by
        rw [List.cons_append, flowAt_bracket] at hread
        obtain ⟨items, hitems, rfl⟩ := mapRead_ok hread
        have hsame := h.same hitems
        rw [List.cons_append, gapOf_cons rfl]
        exact congrArg ('[' :: ·) hsame }
  mapping {cs} h :=
    { flowText := .mapping h.pairText
      same := fun {after d rest left value} _ hread => by
        rw [List.cons_append, flowAt_brace] at hread
        obtain ⟨pairs, hpairs, rfl⟩ := mapRead_ok hread
        have hsame := h.same hpairs
        rw [List.cons_append, gapOf_cons rfl]
        exact congrArg ('\x7b' :: ·) hsame }
  lastItem before _ h after := .last before h after
  moreItems before _ h after _ hrest := .more before h after hrest
  lastPair before _ h := .last before h
  morePairs before _ h _ hrest := .more before h hrest
  bare h hover hcolon := .bare (h.keyText (forall_ne_lineFeed_iff.1 hover)) hcolon
  empty h hover after happart := .empty (h.keyText (forall_ne_lineFeed_iff.1 hover)) after happart
  filled h hover after happart _ hvalue final :=
    .filled (h.keyText (forall_ne_lineFeed_iff.1 hover)) after happart hvalue final

theorem ItemText.exists_concat {tags : Bool} {cs : List Char} (h : ItemText tags cs) : ∃ front, cs = front ++ [']'] := by
  cases h with
  | close gap => exact ⟨_, rfl⟩
  | last before _ after => exact ⟨_, by rw [← List.append_assoc, ← List.append_assoc]⟩
  | more before _ after hrest =>
    obtain ⟨front, rfl⟩ := hrest.exists_concat
    exact ⟨_, by rw [← List.cons_append, ← List.append_assoc, ← List.append_assoc, ← List.append_assoc]⟩
termination_by cs.length
decreasing_by all_goals (simp only [List.length_append, List.length_cons]; omega)

theorem PairText.exists_concat {tags : Bool} {cs : List Char} (h : PairText tags cs) : ∃ front, cs = front ++ ['\x7d'] := by
  cases h with
  | close gap => exact ⟨_, rfl⟩
  | last before => exact ⟨_, by rw [← List.append_assoc]⟩
  | more before _ hrest =>
    obtain ⟨front, rfl⟩ := hrest.exists_concat
    exact ⟨_, by rw [← List.cons_append, ← List.append_assoc, ← List.append_assoc]⟩
termination_by cs.length
decreasing_by all_goals (simp only [List.length_append, List.length_cons]; omega)

inductive IsCollection : List Char → Prop
  | sequence {cs : List Char} (h : ItemsBack cs) : IsCollection ('[' :: cs)
  | mapping {cs : List Char} (h : PairsBack cs) : IsCollection ('\x7b' :: cs)

namespace IsCollection

variable {cs : List Char}

theorem readsBack (h : IsCollection cs) : ReadsBack cs := by
  cases h with
  | sequence h => exact Grammar.back.sequence h
  | mapping h => exact Grammar.back.mapping h

theorem opensFlow (h : IsCollection cs) : opensFlow cs = true := by
  cases h <;> rfl

theorem trimEnd (h : IsCollection cs) : Text.trimEnd cs = cs := by
  cases h with
  | sequence h =>
    obtain ⟨front, rfl⟩ := h.itemText.exists_concat
    rw [← List.cons_append, Text.trimEnd_concat (by decide)]
  | mapping h =>
    obtain ⟨front, rfl⟩ := h.pairText.exists_concat
    rw [← List.cons_append, Text.trimEnd_concat (by decide)]

theorem callText {name : String} (hname : ∀ c ∈ name.toList, isNameChar c = true) {argument : Fragment}
    (h : ReadsBack (argumentText name argument)) : IsCollection (callText name argument) := by
  rw [callText_eq]
  exact .mapping (Grammar.back.isPairs_callBody hname h)

theorem flowAt_append (h : IsCollection cs) (inFlow : Bool) (left : List Char) :
    ∃ value, flowAt inFlow (cs ++ left) = .ok (value, left) ∧ value.fragment = .structured cs := by
  cases h with
  | sequence h =>
    obtain ⟨items, hread, -⟩ := h.itemText.itemsFree left
    refine ⟨.sequence items, by rw [List.cons_append, flowAt_bracket, hread]; rfl, ?_⟩
    rw [Flow.fragment, List.append_cancel_right (h.same hread)]
  | mapping h =>
    obtain ⟨pairs, hread, -⟩ := h.pairText.pairsFree left
    refine ⟨.mapping pairs, by rw [List.cons_append, flowAt_brace, hread]; rfl, ?_⟩
    rw [Flow.fragment, List.append_cancel_right (h.same hread)]

end IsCollection

def Flow.isUnbroken : Flow → Bool
  | .plain cs => cs.all fun c => !endsPlain c
  | .kept _ value => value.isUnbroken
  | .call _ argument => argument.isUnbroken
  | .opened .. => false
  | _ => true
termination_by structural value => value

theorem flowAt_plain (inFlow : Bool) {cs : List Char} (hne : afterGap cs ≠ []) (hopens : opensFlow (afterGap cs) = false)
    (hquote : (afterGap cs).head? ≠ some '"') :
    flowAt inFlow cs = .ok (.plain (plainText inFlow (afterGap cs)),
      (afterGap cs).drop (plainText inFlow (afterGap cs)).length) := by
  rw [flowAt_eq]
  cases hcs : afterGap cs with
  | nil => contradiction
  | cons c rest =>
    rw [hcs] at hopens hquote
    simp only [opensFlow, Bool.or_eq_false_iff, beq_eq_false_iff_ne] at hopens
    obtain ⟨⟨hmark, hbracket⟩, hbrace⟩ := hopens
    have hquote : c ≠ '"' := by simpa using hquote
    simp only [hmark, hbracket, hbrace, hquote, if_false]

theorem afterGap_afterName (cs : List Char) : afterGap (afterName cs) = afterName cs := List.dropWhile_idempotent _ _

/-- Before an argument that is not broken no end of an item stands. -/
theorem lacksArgument_of_isUnbroken {cs left : List Char} {value : Flow} (h : flowAt false cs = .ok (value, left))
    (hgap : afterGap cs = cs) (hend : Text.trimEnd cs = cs) (hwhole : value.isUnbroken = true) :
    lacksArgument true cs = lacksArgument false cs := by
  cases cs with
  | nil => rfl
  | cons d tail =>
    cases hd : endsPlain d with
    | false => simp [lacksArgument, hd]
    | true =>
      have hopens : opensFlow (d :: tail) = false ∧ d ≠ '"' := by
        simp only [endsPlain, Bool.or_eq_true, beq_iff_eq] at hd
        obtain (rfl | rfl) | rfl := hd <;> exact ⟨rfl, by decide⟩
      have hplain : flowAt false (d :: tail) = _ :=
        flowAt_plain false (by simp [hgap]) (by rw [hgap]; exact hopens.1) (by simpa [hgap] using hopens.2)
      rw [hgap, plainText, if_neg Bool.false_ne_true, hend, h] at hplain
      cases hplain
      simp [Flow.isUnbroken, hd] at hwhole

/-- A call is read alike if its argument is. -/
theorem tagAt_true {cs left : List Char} {f : Intrinsic} {argument : Flow} (h : tagAt false cs = .ok (.call f argument, left))
    (hargument : flowAt false (afterName cs) = flowAt true (afterName cs))
    (hlacks : lacksArgument true (afterName cs) = lacksArgument false (afterName cs)) :
    tagAt true cs = .ok (.call f argument, left) := by
  rw [tagAt_eq] at h ⊢
  rw [hargument] at h
  split at h
  · obtain ⟨_, _, heq⟩ := mapRead_ok h
    contradiction
  · rename_i hhead
    rw [if_neg hhead, hlacks]
    split at h
    · contradiction
    · split at h
      · exact absurd h (by simp)
      · rename_i hlacks
        split at h
        · exact absurd h (by simp)
        · simpa [hlacks] using h

/-- Within a collection a value that is not broken is read alike. -/
theorem Flow.flowAt_true (value : Flow) {cs left : List Char} (h : flowAt false cs = .ok (value, left))
    (hend : Text.trimEnd cs = cs) (hwhole : value.isUnbroken = true) : flowAt true cs = .ok (value, left) := by
  cases value with
  | plain text =>
    cases flowAt_ok h with
    | nothing hnil => rw [flowAt_eq, hnil]
    | plain hne hopens hquote =>
      have htrim : plainText false (afterGap cs) = afterGap cs := Text.trimEnd_of_suffix (afterGap_suffix cs) hend
      rw [htrim, isUnbroken, List.all_eq_true] at hwhole
      have htake : (afterGap cs).takeWhile (fun c => !endsPlain c) = afterGap cs := List.takeWhile_eq_self_iff.2 hwhole
      have htext : plainText true (afterGap cs) = plainText false (afterGap cs) := by
        rw [plainText, if_pos rfl, htake]
        rfl
      rw [flowAt_plain true hne hopens hquote, htext]
  | quoted text =>
    cases flowAt_ok h with
    | quoted hcs hclose => rw [← flowAt_afterGap, hcs, flowAt_quote, hclose]
  | sequence items =>
    cases flowAt_ok h with
    | sequence hcs hread =>
      rw [← flowAt_afterGap, hcs, flowAt_bracket, hread]
      rfl
  | mapping pairs =>
    cases flowAt_ok h with
    | mapping hcs hread =>
      rw [← flowAt_afterGap, hcs, flowAt_brace, hread]
      rfl
  | kept tag value =>
    cases flowAt_ok h with
    | @kept rest _ _ hcs hread =>
      have hvalue := value.flowAt_true hread (Text.trimEnd_of_suffix (afterTag_suffix hcs) hend) hwhole
      rw [← flowAt_afterGap, hcs, flowAt_mark, tagAt_mark, hvalue]
      rfl
  | call f argument =>
    cases flowAt_ok h with
    | @call rest _ _ _ hcs hread =>
      have hend := Text.trimEnd_of_suffix (afterName_suffix hcs) hend
      have hargument := argument.flowAt_true hread hend hwhole
      have hlacks := lacksArgument_of_isUnbroken hread (afterGap_afterName rest) hend hwhole
      rw [← flowAt_afterGap, hcs, flowAt_mark] at h ⊢
      exact tagAt_true h (hread.trans hargument.symm) hlacks
  | opened => contradiction

structure ReadsAgain (left cs : List Char) : Prop where
  readsBack : ReadsBack cs
  opens : opensFlow cs = true
  ends : Text.trimEnd cs = cs
  reads : ∃ value, flowAt false (cs ++ left) = .ok (value, left) ∧ value.fragment = .structured cs

theorem IsCollection.readsAgain {cs : List Char} (h : IsCollection cs) (left : List Char) : ReadsAgain left cs :=
  ⟨h.readsBack, h.opensFlow, h.trimEnd, h.flowAt_append false left⟩

/-- What is read as it stands stays so when it is written out. -/
theorem expandValue_of_reads {cs left : List Char}
    (h : ∃ value, flowAt false (cs ++ left) = .ok (value, left) ∧ value.fragment = .structured cs) :
    expandValue (cs ++ left) = .ok .unchanged ∨ expandValue (cs ++ left) = .ok (.inline (cs ++ left)) := by
  obtain ⟨value, hread, hfragment⟩ := h
  rw [expandValue_eq]
  split
  · rw [hread]
    simp only [hfragment]
    exact .inr rfl
  · exact .inl rfl

def Fragment.IsArgument (left : List Char) : Fragment → Prop
  | .plain cs => '\n' ∉ cs
  | .quoted cs => staysQuoted cs = true ∧ '\n' ∉ cs
  | .structured cs => ReadsAgain left cs
  | .waiting .. => True

theorem Fragment.IsArgument.applyName {left : List Char} {fragment : Fragment} (h : fragment.IsArgument left)
    {name : String} (hname : ∀ c ∈ name.toList, isNameChar c = true) (behind : List Char) :
    (applyName name fragment).IsArgument behind := by
  have hcall {argument : Fragment} (h : ReadsBack (argumentText name argument)) :
      ReadsAgain behind (callText name argument) := (IsCollection.callText hname h).readsAgain behind
  cases fragment with
  | plain cs => exact hcall (Grammar.back.isValue_plainArgument name (forall_ne_lineFeed_iff.2 h))
  | quoted cs => exact hcall (Grammar.back.isValue_quotedArgument name h.1 (forall_ne_lineFeed_iff.2 h.2))
  | structured cs => exact hcall (ReadsAgain.readsBack h)
  | waiting => trivial

abbrev Flow.isSteady (value : Flow) : Bool := value.all closesItself staysTagged

def Flow.isSteadyOnLine : Flow → Bool
  | .plain _ => true
  | .call _ argument => argument.isSteadyOnLine
  | .kept name value => (Flow.kept name value).isSteady && value.isUnbroken
  | value => value.isSteady
termination_by structural value => value

section Collections

variable {cs left : List Char}

theorem isCollection_sequence {items : Items} (h : flowAt false cs = .ok (.sequence items, left)) (hline : '\n' ∉ cs)
    (hall : (Flow.sequence items).isSteady = true) : IsCollection ('[' :: items.text) := by
  cases flowAt_ok h with
  | sequence hcs hread =>
    have hrest := forall_ne_lineFeed_iff.2 (not_mem_of_suffix (suffix_of_afterGap hcs) hline)
    exact .sequence (items.isWritten (G := .back) hread hrest hall)

theorem isCollection_mapping {pairs : Pairs} (h : flowAt false cs = .ok (.mapping pairs, left)) (hline : '\n' ∉ cs)
    (hall : (Flow.mapping pairs).isSteady = true) : IsCollection ('\x7b' :: pairs.text) := by
  cases flowAt_ok h with
  | mapping hcs hread =>
    have hrest := forall_ne_lineFeed_iff.2 (not_mem_of_suffix (suffix_of_afterGap hcs) hline)
    exact .mapping (pairs.isWritten (G := .back) hread hrest hall)

end Collections

/-- What a value at the end of a line becomes is read there as it stands. -/
theorem Flow.flowAt_text (value : Flow) {cs left : List Char} (h : flowAt false cs = .ok (value, left)) (hline : '\n' ∉ cs)
    (hend : Text.trimEnd cs = cs) (hall : value.isSteady = true) (hwhole : value.isUnbroken = true) :
    Text.trimEnd value.fragment.text = value.fragment.text ∧
      ∃ again, flowAt false (value.fragment.text ++ left) = .ok (again, left) ∧ again.fragment = value.fragment := by
  -- A collection ends itself, so what is left behind it plays no part; a scalar keeps its text, gap apart.
  have hcollection {text : List Char} (hfragment : value.fragment = .structured text) (h : IsCollection text) :
      Text.trimEnd value.fragment.text = value.fragment.text ∧
        ∃ again, flowAt false (value.fragment.text ++ left) = .ok (again, left) ∧ again.fragment = value.fragment := by
    rw [hfragment]
    exact ⟨h.trimEnd, h.flowAt_append false left⟩
  have hscalar (hscalar : (∃ text, value = .plain text) ∨ ∃ text, value = .quoted text) :
      ∃ again, flowAt false (value.fragment.text ++ left) = .ok (again, left) ∧ again.fragment = value.fragment := by
    have hsame := (text_append_of_scalar h hscalar).trans (gapOf_append_afterGap cs).symm
    rw [List.append_cancel_left hsame, flowAt_afterGap]
    exact ⟨value, h, rfl⟩
  cases value with
  | plain text =>
    refine ⟨?_, hscalar (.inl ⟨text, rfl⟩)⟩
    cases flowAt_ok h with
    | nothing => rfl
    | plain => exact Text.trimEnd_trimEnd _
  | quoted text => exact ⟨Text.trimEnd_concat (by decide), hscalar (.inr ⟨text, rfl⟩)⟩
  | sequence items => exact hcollection rfl (isCollection_sequence h hline hall)
  | mapping pairs => exact hcollection rfl (isCollection_mapping h hline hall)
  | kept tag inner =>
    cases flowAt_ok h with
    | @kept rest _ _ hcs hread =>
      obtain ⟨htag, hall⟩ := Bool.and_eq_true_iff.1 hall
      have hname : ∀ c ∈ rest.takeWhile (fun c => !isTagEnd c), isTagEnd c = false := fun c hc => isTagEnd_of_mem hc
      have hsuffix := afterTag_suffix hcs
      obtain ⟨htrim, again, hagain, hsame⟩ := inner.flowAt_text hread (not_mem_of_suffix hsuffix hline)
        (Text.trimEnd_of_suffix hsuffix hend) hall hwhole
      generalize rest.takeWhile (fun c => !isTagEnd c) = name at htag hname
      have htext : (Flow.kept ('!' :: '!' :: name) inner).fragment.text =
          '!' :: '!' :: (name ++ [' ']) ++ inner.fragment.text := by simp [Flow.fragment, Fragment.text]
      refine ⟨by rw [htext, Text.trimEnd_append (ne_nil_of_staysTagged htag) htrim], .kept ('!' :: '!' :: name) again, ?_, ?_⟩
      · have hread := flowAt_tagged hname false (inner.fragment.text ++ left)
        rw [hagain] at hread
        rw [htext]
        simpa [mapRead] using hread
      · rw [Flow.fragment, Flow.fragment, hsame]
  | call f argument =>
    cases flowAt_ok h with
    | @call rest _ _ _ hcs hread =>
      have hsuffix := afterName_suffix hcs
      have hargument := argument.flowAt_true hread (Text.trimEnd_of_suffix hsuffix hend) hwhole
      have hrest := forall_ne_lineFeed_iff.2 (not_mem_of_suffix hsuffix hline)
      have hwritten := argument.isWritten (G := .back) hargument hrest hall
      have hfragment : (Flow.call f argument).fragment = .structured (callText f.longName argument.fragment) := by
        rw [Flow.fragment]
        cases hfragment : argument.fragment with
        | waiting =>
          rw [hfragment] at hwritten
          contradiction
        | _ => rfl
      exact hcollection hfragment
        (.callText (fun c hc => isNameChar_of_mem_longName hc) (hwritten.isValue_argumentText f.longName))
  | opened => contradiction

/-- At the top of a line a steady value becomes a scalar, waits, or is settled. -/
theorem Flow.isArgument (value : Flow) {cs left : List Char} (h : flowAt false cs = .ok (value, left)) (hline : '\n' ∉ cs)
    (hend : Text.trimEnd cs = cs) (hsteady : value.isSteadyOnLine = true) : value.fragment.IsArgument left := by
  have hafter := not_mem_of_suffix (afterGap_suffix cs) hline
  cases value with
  | plain text =>
    cases flowAt_ok h with
    | nothing => exact List.not_mem_nil
    | plain => exact fun hmem => hafter ((Text.prefix_trimEnd _).subset hmem)
  | quoted text =>
    cases flowAt_ok h with
    | quoted hcs hclose =>
      obtain ⟨hstays, hrest⟩ := closeQuote_ok hclose
      rw [hcs, hrest] at hafter
      exact ⟨hstays, fun hmem => hafter (by simp [hmem])⟩
  | sequence items => exact (isCollection_sequence h hline hsteady).readsAgain left
  | mapping pairs => exact (isCollection_mapping h hline hsteady).readsAgain left
  | kept tag inner =>
    obtain ⟨hall, hwhole⟩ := Bool.and_eq_true_iff.1 hsteady
    obtain ⟨htrim, hreads⟩ := (Flow.kept tag inner).flowAt_text h hline hend hall hwhole
    have hinner := (Flow.kept tag inner).flowAt_true h hend hwhole
    have hwritten := (Flow.kept tag inner).isWritten (G := .back) hinner (forall_ne_lineFeed_iff.2 hline) hall
    refine ⟨hwritten.isValue, ?_, htrim, hreads⟩
    cases flowAt_ok h with
    | kept => rfl
  | call f argument =>
    cases flowAt_ok h with
    | @call rest _ _ _ hcs hread =>
      have hsuffix := afterName_suffix hcs
      have hargument := argument.isArgument hread (not_mem_of_suffix hsuffix hline) (Text.trimEnd_of_suffix hsuffix hend)
        hsteady
      exact hargument.applyName (fun c hc => isNameChar_of_mem_longName hc) left
  | opened => trivial

end CloudTemplate.Shorthand
