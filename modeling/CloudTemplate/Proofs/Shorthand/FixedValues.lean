import CloudTemplate.Proofs.Shorthand.ReadBack
import CloudTemplate.Proofs.Shorthand.ScalarArguments
import CloudTemplate.Proofs.Shorthand.Soundness
/-! Values that are written out twice. In a text without two marks in a row no tag is kept, so that what the text is
written as has neither calls nor tags, whatever brackets and line feeds there are in it. Such a text is read to the same
end wherever it stands, and what is read of it is written as it stands. -/
namespace CloudTemplate.Shorthand

mutual

/-- A value without calls and tags is written as it was read. -/
theorem Flow.text_append_of_isCallFree (value : Flow) {inFlow : Bool} {cs left : List Char}
    (h : flowAt inFlow cs = .ok (value, left)) (hfree : value.isCallFree false = true) :
    gapOf cs ++ (value.fragment.text ++ left) = cs := by
  have hgap := gapOf_append_afterGap cs
  cases value with
  | plain text => exact text_append_of_scalar h (.inl ⟨text, rfl⟩)
  | quoted text => exact text_append_of_scalar h (.inr ⟨text, rfl⟩)
  | sequence items =>
    cases flowAt_ok h with
    | sequence hcs hread =>
      rw [hcs] at hgap
      rw [Flow.fragment, Fragment.text, List.cons_append, items.text_append_of_isCallFree hread hfree, hgap]
  | mapping pairs =>
    cases flowAt_ok h with
    | mapping hcs hread =>
      rw [hcs] at hgap
      rw [Flow.fragment, Fragment.text, List.cons_append, pairs.text_append_of_isCallFree hread hfree, hgap]
  | _ => contradiction

theorem Items.text_append_of_isCallFree (items : Items) {cs left : List Char} (h : itemsAt cs = .ok (items, left))
    (hfree : items.isCallFree false = true) : items.text ++ left = cs := by
  cases items with
  | close gap =>
    cases itemsAt_ok h with
    | close hcs => exact Items.text_append_close hcs
  | last before value after =>
    cases itemsAt_ok h with
    | last hread hafter =>
      rw [flowAt_afterGap] at hread
      exact Items.text_append_last (value.text_append_of_isCallFree hread hfree) hafter
  | more before value after others =>
    cases itemsAt_ok h with
    | more hread hafter hothers =>
      obtain ⟨hvalue, hrest⟩ := Bool.and_eq_true_iff.1 hfree
      rw [flowAt_afterGap] at hread
      exact Items.text_append_more (value.text_append_of_isCallFree hread hvalue) hafter
        (others.text_append_of_isCallFree hothers hrest)

theorem Pairs.text_append_of_isCallFree (pairs : Pairs) {cs left : List Char} (h : pairsAt cs = .ok (pairs, left))
    (hfree : pairs.isCallFree false = true) : pairs.text ++ left = cs := by
  cases pairs with
  | close gap =>
    cases pairsAt_ok h with
    | close hcs => exact Pairs.text_append_close hcs
  | last before key gap slot =>
    cases pairsAt_ok h with
    | last hkey hslot =>
      exact Pairs.text_append_last (EntryBack.text_append hkey (slot.text_append_of_isCallFree hslot hfree))
  | more before key gap slot others =>
    cases pairsAt_ok h with
    | more hkey hslot hothers =>
      obtain ⟨hslotFree, hrest⟩ := Bool.and_eq_true_iff.1 hfree
      exact Pairs.text_append_more (EntryBack.text_append hkey (slot.text_append_of_isCallFree hslot hslotFree))
        (others.text_append_of_isCallFree hothers hrest)

theorem Slot.text_append_of_isCallFree (slot : Slot) {cs left : List Char} (h : slotAt cs = .ok (slot, left))
    (hfree : slot.isCallFree false = true) : slot.text ++ left = cs := by
  cases slot with
  | bare =>
    cases slotAt_ok h with
    | bare => rfl
  | empty gap =>
    cases slotAt_ok h with
    | empty _ hleft => rw [Slot.text, ← hleft, List.cons_append, gapOf_append_afterGap]
  | filled before value final =>
    cases slotAt_ok h with
    | filled _ hread hleft =>
      rw [flowAt_afterGap] at hread
      simp only [Slot.text, List.cons_append, List.append_assoc, ← hleft, gapOf_append_afterGap,
        value.text_append_of_isCallFree hread hfree]

end

theorem not_infix_of_suffix {cs ds : List Char} (h : cs <:+ ds) (hmarks : ¬['!', '!'] <:+: ds) : ¬['!', '!'] <:+: cs :=
  fun hmem => hmarks (hmem.trans h.isInfix)

theorem infix_of_afterGap {cs rest : List Char} (h : afterGap cs = '!' :: '!' :: rest) : ['!', '!'] <:+: cs := by
  have hstart : ['!', '!'] <+: afterGap cs := ⟨rest, h.symm⟩
  exact hstart.isInfix.trans (afterGap_suffix cs).isInfix

mutual

/-- No tag is kept in a text without two marks in a row. -/
theorem Flow.keeps_none (value : Flow) {inFlow : Bool} {cs left : List Char} (h : flowAt inFlow cs = .ok (value, left))
    (hmarks : ¬['!', '!'] <:+: cs) : value.all (fun _ => true) (fun _ _ => false) = true := by
  -- Induction on what was read: the text of each part is an end of the whole one and holds no two marks either.
  cases value with
  | sequence items =>
    cases flowAt_ok h with
    | sequence hcs hread => exact items.keeps_none hread (not_infix_of_suffix (suffix_of_afterGap hcs) hmarks)
  | mapping pairs =>
    cases flowAt_ok h with
    | mapping hcs hread => exact pairs.keeps_none hread (not_infix_of_suffix (suffix_of_afterGap hcs) hmarks)
  | kept tag inner =>
    cases flowAt_ok h with
    | kept hcs => exact absurd (infix_of_afterGap hcs) hmarks
  | call f argument =>
    cases flowAt_ok h with
    | call _ hcs hread => exact argument.keeps_none hread (not_infix_of_suffix (afterName_suffix hcs) hmarks)
  | _ => rfl

theorem Items.keeps_none (items : Items) {cs left : List Char} (h : itemsAt cs = .ok (items, left))
    (hmarks : ¬['!', '!'] <:+: cs) : items.all (fun _ => true) (fun _ _ => false) = true := by
  have hafter := not_infix_of_suffix (afterGap_suffix cs) hmarks
  cases items with
  | close => rfl
  | last before value after =>
    cases itemsAt_ok h with
    | last hread => exact value.keeps_none hread hafter
  | more before value after others =>
    cases itemsAt_ok h with
    | more hread hcomma hothers =>
      have hbehind := (suffix_of_afterGap hcomma).trans (value.suffix hread)
      exact Bool.and_eq_true_iff.2
        ⟨value.keeps_none hread hafter, others.keeps_none hothers (not_infix_of_suffix hbehind hafter)⟩

theorem Pairs.keeps_none (pairs : Pairs) {cs left : List Char} (h : pairsAt cs = .ok (pairs, left))
    (hmarks : ¬['!', '!'] <:+: cs) : pairs.all (fun _ => true) (fun _ _ => false) = true := by
  have hbehindKey {key afterKey : List Char} (hkey : keyAt (afterGap cs) = .ok (key, afterKey)) :
      ¬['!', '!'] <:+: afterGap afterKey :=
    not_infix_of_suffix ((afterGap_suffix afterKey).trans ((keyAt_suffix hkey).trans (afterGap_suffix cs))) hmarks
  cases pairs with
  | close => rfl
  | last before key gap slot =>
    cases pairsAt_ok h with
    | last hkey hslot => exact Bool.and_eq_true_iff.2 ⟨rfl, slot.keeps_none hslot (hbehindKey hkey)⟩
  | more before key gap slot others =>
    cases pairsAt_ok h with
    | more hkey hslot hothers =>
      have hbehind := (List.suffix_cons _ _).trans (slot.suffix_of_keyAt hkey hslot)
      have hentry := Bool.and_eq_true_iff.2 ⟨rfl, slot.keeps_none hslot (hbehindKey hkey)⟩
      exact Bool.and_eq_true_iff.2 ⟨hentry, others.keeps_none hothers (not_infix_of_suffix hbehind hmarks)⟩

theorem Slot.keeps_none (slot : Slot) {cs left : List Char} (h : slotAt cs = .ok (slot, left))
    (hmarks : ¬['!', '!'] <:+: cs) : slot.all (fun _ => true) (fun _ _ => false) = true := by
  cases slot with
  | filled before value final =>
    cases slotAt_ok h with
    | filled _ hread =>
      exact value.keeps_none hread (not_infix_of_suffix ((afterGap_suffix _).trans (List.suffix_cons _ _)) hmarks)
  | _ => rfl

end

def Grammar.free : Grammar where
  admits _ := true
  admits_added _ := rfl
  IsValue := ReadsFree false
  IsItems := ItemsFree false
  IsPairs := PairsFree false
  IsEntry := EntryFree false
  keeps _ _ := false
  plain h _ := .plain h
  quoted h _ := .quoted h
  tagged htag := absurd htag Bool.false_ne_true
  sequence := .sequence
  mapping := .mapping
  lastItem before _ h after := .last before h after
  moreItems before _ h after _ hrest := .more before h after hrest
  lastPair before _ h := .last before h
  morePairs before _ h _ hrest := .more before h hrest
  bare h _ hcolon := .bare h hcolon
  empty h _ after happart := .empty h after happart
  filled h _ after happart _ hvalue final := .filled h after happart hvalue final

inductive IsFree : List Char → Prop
  | sequence {cs : List Char} (h : ItemsFree false cs) : IsFree ('[' :: cs)
  | mapping {cs : List Char} (h : PairsFree false cs) : IsFree ('\x7b' :: cs)

namespace IsFree

variable {cs : List Char}

theorem readsFree (h : IsFree cs) : ReadsFree false cs := by
  cases h with
  | sequence h => exact .sequence h
  | mapping h => exact .mapping h

/-- Such a collection is read as it stands, whatever stands behind it. -/
theorem flowAt_append (h : IsFree cs) (inFlow : Bool) (left : List Char) :
    ∃ value, flowAt inFlow (cs ++ left) = .ok (value, left) ∧ value.fragment = .structured cs := by
  cases h with
  | sequence h =>
    obtain ⟨items, hread, hfree⟩ := h left
    refine ⟨.sequence items, by rw [List.cons_append, flowAt_bracket, hread]; rfl, ?_⟩
    rw [Flow.fragment, List.append_cancel_right (items.text_append_of_isCallFree hread hfree)]
  | mapping h =>
    obtain ⟨pairs, hread, hfree⟩ := h left
    refine ⟨.mapping pairs, by rw [List.cons_append, flowAt_brace, hread]; rfl, ?_⟩
    rw [Flow.fragment, List.append_cancel_right (pairs.text_append_of_isCallFree hread hfree)]

theorem callText {name : String} (hname : ∀ c ∈ name.toList, isNameChar c = true) {argument : Fragment}
    (h : ReadsFree false (argumentText name argument)) : IsFree (callText name argument) := by
  rw [callText_eq]
  exact .mapping (Grammar.free.isPairs_callBody hname h)

end IsFree

def Fragment.IsFree : Fragment → Prop
  | .quoted cs => staysQuoted cs = true
  | .structured cs => Shorthand.IsFree cs
  | _ => True

theorem Fragment.IsFree.applyName {fragment : Fragment} (h : fragment.IsFree) {name : String}
    (hname : ∀ c ∈ name.toList, isNameChar c = true) : (applyName name fragment).IsFree := by
  have hadmits (cs : List Char) : ∀ c ∈ cs, Grammar.free.admits c = true := fun _ _ => rfl
  cases fragment with
  -- Nothing is asked of a plain text: what would end it in a collection stands between quotes there.
  | plain cs => exact Shorthand.IsFree.callText hname (Grammar.free.isValue_plainArgument name (hadmits cs))
  | quoted cs => exact Shorthand.IsFree.callText hname (Grammar.free.isValue_quotedArgument name h (hadmits cs))
  | structured cs => exact Shorthand.IsFree.callText hname (Shorthand.IsFree.readsFree h)
  | waiting => trivial

/-- At the top of a line the arguments of tags may hold what would end them in a collection. -/
theorem Flow.isFree (value : Flow) {cs left : List Char} (h : flowAt false cs = .ok (value, left))
    (hmarks : ¬['!', '!'] <:+: cs) : value.fragment.IsFree := by
  cases value with
  | quoted text =>
    cases flowAt_ok h with
    | quoted _ hclose => exact (closeQuote_ok hclose).1
  | sequence items =>
    cases flowAt_ok h with
    | sequence hcs hread =>
      have hall := items.keeps_none hread (not_infix_of_suffix (suffix_of_afterGap hcs) hmarks)
      exact .sequence (items.isWritten (G := .free) hread (fun _ _ => rfl) hall)
  | mapping pairs =>
    cases flowAt_ok h with
    | mapping hcs hread =>
      have hall := pairs.keeps_none hread (not_infix_of_suffix (suffix_of_afterGap hcs) hmarks)
      exact .mapping (pairs.isWritten (G := .free) hread (fun _ _ => rfl) hall)
  | kept tag inner =>
    cases flowAt_ok h with
    | kept hcs => exact absurd (infix_of_afterGap hcs) hmarks
  | call f argument =>
    cases flowAt_ok h with
    | call _ hcs hread =>
      have hargument := argument.isFree hread (not_infix_of_suffix (afterName_suffix hcs) hmarks)
      exact hargument.applyName fun c hc => isNameChar_of_mem_longName hc
  | _ => trivial

/-- Writing out what a text has been written out as changes nothing if there are no two marks in a row, which would make
a tag that is kept. -/
theorem expandValue_expandValue {value text : List Char} (hmarks : ¬['!', '!'] <:+: value)
    (h : expandValue value = .ok (.inline text)) :
    expandValue text = .ok .unchanged ∨ expandValue text = .ok (.inline text) := by
  rw [expandValue_eq] at h
  split at h
  · rename_i hopens
    split at h
    · contradiction
    · rename_i flow left hread
      have hfree := flow.isFree hread hmarks
      obtain ⟨text, hfragment⟩ | ⟨names, indicator, hfragment⟩ :=
        Flow.fragment_cases hread (Bool.and_eq_true_iff.1 hopens).2
      · -- The text left behind the value is left again, so the whole is echoed and not only the value.
        rw [hfragment] at h hfree
        cases h
        exact expandValue_of_reads (hfree.flowAt_append false left)
      · rw [hfragment] at h
        simp at h
  · simp at h

/-- A bracket and a comma in an argument that ends its line end nothing in the collection which that becomes. -/
theorem expandValue_expandValue_brackets :
    expandValue "!Base64 !GetAtt a], b.c".toList =
        .ok (.inline "\x7b \"Fn::Base64\" : \x7b \"Fn::GetAtt\" : [\"a], b\", \"c\"] \x7d \x7d".toList) ∧
      (expandValue "\x7b \"Fn::Base64\" : \x7b \"Fn::GetAtt\" : [\"a], b\", \"c\"] \x7d \x7d".toList = .ok .unchanged ∨
        expandValue "\x7b \"Fn::Base64\" : \x7b \"Fn::GetAtt\" : [\"a], b\", \"c\"] \x7d \x7d".toList =
          .ok (.inline "\x7b \"Fn::Base64\" : \x7b \"Fn::GetAtt\" : [\"a], b\", \"c\"] \x7d \x7d".toList)) := by
  let argument : LastScalar := .plain "a], b.c".toList (by decide) (by decide) (by decide) (by decide)
  have hexpand : expandValue "!Base64 !GetAtt a], b.c".toList =
      .ok (.inline "\x7b \"Fn::Base64\" : \x7b \"Fn::GetAtt\" : [\"a], b\", \"c\"] \x7d \x7d".toList) :=
    argument.expandValue_tagTexts .getAtt [(.base64, oneSpace)] oneSpace (isAlphanum_head_append oneSpace_ne_nil)
  exact ⟨hexpand, expandValue_expandValue (by simp [List.infix_cons_iff]) hexpand⟩

end CloudTemplate.Shorthand
