import CloudTemplate.Proofs.Shorthand.ReadBack
/-! Readings with more text behind them. A collection ends at its own bracket, so what is read of it and where the reading
ends do not depend on what stands behind: `itemsAt_append`, `pairsAt_append`. -/
namespace CloudTemplate.Shorthand

theorem takeWhile_append_more {p : Char → Bool} {cs : List Char} (h : cs.dropWhile p ≠ []) (more : List Char) :
    (cs ++ more).takeWhile p = cs.takeWhile p ∧ (cs ++ more).dropWhile p = cs.dropWhile p ++ more := by
  induction cs with
  | nil => contradiction
  | cons c cs ih =>
    by_cases hc : p c = true
    · rw [List.dropWhile_cons_of_pos hc] at h
      obtain ⟨htake, hdrop⟩ := ih h
      simp [hc, htake, hdrop]
    · simp [hc]

theorem afterGap_append_more {cs : List Char} (h : afterGap cs ≠ []) (more : List Char) :
    afterGap (cs ++ more) = afterGap cs ++ more := (takeWhile_append_more h more).2

theorem gapOf_append_more {cs : List Char} (h : afterGap cs ≠ []) (more : List Char) : gapOf (cs ++ more) = gapOf cs :=
  (takeWhile_append_more h more).1

theorem ne_nil_of_afterGap {cs rest : List Char} {c : Char} (h : afterGap cs = c :: rest) : afterGap cs ≠ [] := by simp [h]

theorem flowAt_append_more {inFlow : Bool} {cs : List Char} (h : afterGap cs ≠ []) (more : List Char) :
    flowAt inFlow (cs ++ more) = flowAt inFlow (afterGap cs ++ more) := by
  rw [← flowAt_afterGap, afterGap_append_more h]

theorem closeQuote_append_more {cs text left : List Char} (h : closeQuote cs = some (text, left)) (more : List Char) :
    closeQuote (cs ++ more) = some (text, left ++ more) := by
  obtain ⟨hstays, rfl⟩ := closeQuote_ok h
  rw [List.append_assoc, List.cons_append]
  exact closeQuote_append ⟨text, hstays⟩ (left ++ more)

theorem plainText_append_more {cs : List Char} {c : Char} (hc : c ∈ cs) (hends : endsPlain c = true) (more : List Char) :
    plainText true (cs ++ more) = plainText true cs := by
  have hdrop : cs.dropWhile (fun c => !endsPlain c) ≠ [] := by
    intro hnil
    have hall := List.dropWhile_eq_nil_iff.1 hnil c hc
    simp [hends] at hall
  rw [plainText, plainText, if_pos rfl, if_pos rfl, (takeWhile_append_more hdrop more).1]

/-- A slot that ends at a comma or a brace starts with a character that is not blank, and does not end at its colon. -/
theorem slotAt_front {cs rest : List Char} {slot : Slot} {d : Char} (h : slotAt cs = .ok (slot, d :: rest))
    (hd : endsPlain d = true) : ∃ e tail, cs = e :: tail ∧ Text.isBlank e = false ∧ (e = ':' → tail ≠ []) := by
  have hblank : Text.isBlank d = false := by
    simp only [endsPlain, Bool.or_eq_true, beq_iff_eq] at hd
    obtain (rfl | rfl) | rfl := hd <;> decide
  cases slotAt_ok h with
  | bare =>
    refine ⟨d, rest, rfl, hblank, ?_⟩
    rintro rfl
    contradiction
  | empty hends hleft =>
    refine ⟨':', _, rfl, by decide, ?_⟩
    rintro - rfl
    contradiction
  | filled hends =>
    refine ⟨':', _, rfl, by decide, ?_⟩
    rintro - rfl
    contradiction

/-- A plain key ends where it does whatever stands behind, unless a colon with nothing behind it ends the key. -/
theorem plainKeyRun_append_more {cs tail : List Char} {e : Char} (h : cs = plainKeyRun cs ++ e :: tail)
    (hcolon : e = ':' → tail ≠ []) (more : List Char) : plainKeyRun (cs ++ more) = plainKeyRun cs := by
  obtain ⟨stop, hcs, hstop, hstays, hlast⟩ := plainKeyRun_append_rest cs
  obtain rfl : stop = e :: tail := List.append_cancel_left (hcs.symm.trans h)
  have hstops : plainKeyRun (e :: tail ++ more) = [] := by
    rw [plainKeyRun_cons] at hstop
    rw [List.cons_append, plainKeyRun_cons]
    split at hstop
    · rename_i he
      refine if_pos ?_
      cases tail with
      | nil =>
        have hne : e ≠ ':' := fun he => hcolon he rfl
        simpa [stopsKey, hne] using he
      | cons c tail => exact he
    · contradiction
  conv_lhs => rw [hcs, List.append_assoc]
  exact plainKeyRun_append hstays hstops fun h => by rw [List.cons_append]; exact hlast h

/-- What is left behind a plain key are the blanks that end it and what ends it. -/
theorem eq_of_plainKey {cs tail : List Char} {e : Char} (h : afterGap (cs.drop (plainKey cs).length) = e :: tail)
    (he : Text.isBlank e = false) : cs = plainKeyRun cs ++ e :: tail := by
  obtain ⟨stop, hcs, hstop, -⟩ := plainKeyRun_append_rest cs
  obtain ⟨blanks, hrun, hblanks⟩ := Text.exists_trimEnd_append (plainKeyRun cs)
  rw [← plainKey] at hrun
  have hfront : cs = plainKey cs ++ (blanks ++ stop) := by rw [← List.append_assoc, hrun, ← hcs]
  have hdrop : cs.drop (plainKey cs).length = blanks ++ stop := by
    rw [hfront, List.drop_left' (by rw [← hfront])]
  rw [hdrop] at h
  have hgaps := isGap_of_afterGap hblanks h he
  have hstart := gapOf_append_afterGap stop
  rw [gapOf_of_plainKeyRun hstop, List.nil_append] at hstart
  rw [afterGap_append hgaps, hstart] at h
  rw [← h, ← hcs]

theorem keyAt_append_more {cs key afterKey tail : List Char} {e : Char} (h : keyAt cs = .ok (key, afterKey))
    (hafter : afterGap afterKey = e :: tail) (he : Text.isBlank e = false) (hcolon : e = ':' → tail ≠ [])
    (more : List Char) : keyAt (cs ++ more) = .ok (key, afterKey ++ more) := by
  by_cases hquote : cs.head? = some '"'
  · obtain ⟨body, rfl⟩ := List.head?_eq_some_iff.1 hquote
    rw [keyAt_quote] at h
    rw [List.cons_append, keyAt_quote]
    split at h
    · contradiction
    · rename_i hclose
      cases h
      rw [closeQuote_append_more hclose]
  · rw [keyAt_plain hquote] at h
    obtain ⟨rfl, rfl⟩ := Prod.mk.inj (Except.ok.inj h)
    have hcs := eq_of_plainKey hafter he
    have hne : cs ≠ [] := by
      rintro rfl
      contradiction
    have hsame : plainKey (cs ++ more) = plainKey cs := by rw [plainKey, plainKeyRun_append_more hcs hcolon, plainKey]
    have hle : (plainKey cs).length ≤ cs.length := by
      have hlength := congrArg List.length (plainKey_append_drop cs)
      rw [List.length_append] at hlength
      omega
    rw [keyAt_plain (by rwa [List.head?_append_of_ne_nil _ hne]), hsame, List.drop_append_of_le_length hle]

def EndsValue (left : List Char) : Prop := ∃ d rest, afterGap left = d :: rest ∧ endsPlain d = true

theorem EndsValue.ne_nil {cs left : List Char} {value : Flow} (hends : EndsValue left)
    (h : flowAt true cs = .ok (value, left)) : cs ≠ [] := by
  obtain ⟨d, rest, hleft, -⟩ := hends
  rintro rfl
  rw [flowAt_eq] at h
  cases h
  contradiction

theorem tagAt_append_more {cs left left' : List Char} {f : Intrinsic} {argument : Flow} {more : List Char}
    (h : tagAt true cs = .ok (.call f argument, left)) (hne : afterName cs ≠ [])
    (hargument : flowAt true (afterName cs ++ more) = .ok (argument, left')) :
    tagAt true (cs ++ more) = .ok (.call f argument, left') := by
  have hdrop : cs.dropWhile Char.isAlphanum ≠ [] := by
    intro hnil
    rw [afterName, hnil] at hne
    contradiction
  obtain ⟨htake, hrest⟩ := takeWhile_append_more hdrop more
  have hname : afterName (cs ++ more) = afterName cs ++ more := by rw [afterName, hrest, afterGap_append_more hne, afterName]
  have hlacks : lacksArgument true (afterName cs ++ more) = lacksArgument true (afterName cs) := by
    obtain ⟨c, tail, hcs⟩ := List.exists_cons_of_ne_nil hne
    rw [hcs]
    rfl
  have hhead : (cs ++ more).head? = cs.head? := by
    refine List.head?_append_of_ne_nil _ ?_
    rintro rfl
    contradiction
  rw [tagAt_eq] at h ⊢
  rw [htake, hname, hlacks, hhead, hargument]
  split at h
  · obtain ⟨_, _, heq⟩ := mapRead_ok h
    contradiction
  · rename_i hmark
    rw [if_neg hmark]
    split at h
    · contradiction
    · split at h
      · contradiction
      · rename_i hf hlacks
        obtain ⟨_, _, heq⟩ := mapRead_ok h
        cases heq
        rw [if_neg hlacks]
        rfl

theorem flowAt_plain_append {cs : List Char} (hne : afterGap cs ≠ []) (hopens : opensFlow (afterGap cs) = false)
    (hquote : (afterGap cs).head? ≠ some '"')
    (hends : EndsValue ((afterGap cs).drop (plainText true (afterGap cs)).length)) (more : List Char) :
    flowAt true (cs ++ more) =
      .ok (.plain (plainText true (afterGap cs)), (afterGap cs).drop (plainText true (afterGap cs)).length ++ more) := by
  obtain ⟨d, rest, hleft, hd⟩ := hends
  have hmem : d ∈ afterGap cs := by
    have hsuffix := (afterGap_suffix _).trans (List.drop_suffix (plainText true (afterGap cs)).length (afterGap cs))
    rw [hleft] at hsuffix
    exact hsuffix.subset List.mem_cons_self
  have hle : (plainText true (afterGap cs)).length ≤ (afterGap cs).length := by
    have hlength := congrArg List.length (plainText_append_drop true (afterGap cs))
    rw [List.length_append] at hlength
    omega
  have hgap := afterGap_append_more hne more
  have hopens' : opensFlow (afterGap (cs ++ more)) = false := by
    rw [hgap]
    obtain ⟨c, tail, hcs⟩ := List.exists_cons_of_ne_nil hne
    rw [hcs] at hopens ⊢
    exact hopens
  have hquote' : (afterGap (cs ++ more)).head? ≠ some '"' := by rwa [hgap, List.head?_append_of_ne_nil _ hne]
  rw [flowAt_plain true (by simp [hgap, hne]) hopens' hquote', hgap, plainText_append_more hmem hd,
    List.drop_append_of_le_length hle]

/-- The items behind a bracket that does not close at once. -/
theorem afterGap_of_itemsAt {cs left : List Char} {items : Items} (h : itemsAt cs = .ok (items, left))
    (hitems : ∀ gap, items ≠ .close gap) : afterGap cs ≠ [] ∧ (afterGap cs).head? ≠ some ']' := by
  rw [itemsAt_eq] at h
  refine ⟨fun hnil => ?_, fun hclose => ?_⟩
  · rw [hnil] at h
    contradiction
  · obtain ⟨rest, hrest⟩ := List.head?_eq_some_iff.1 hclose
    rw [hrest] at h
    cases h
    exact hitems _ rfl

theorem afterGap_of_pairsAt {cs left : List Char} {pairs : Pairs} (h : pairsAt cs = .ok (pairs, left))
    (hpairs : ∀ gap, pairs ≠ .close gap) : afterGap cs ≠ [] ∧ (afterGap cs).head? ≠ some '\x7d' := by
  rw [pairsAt_eq] at h
  refine ⟨fun hnil => ?_, fun hclose => ?_⟩
  · rw [hnil] at h
    contradiction
  · obtain ⟨rest, hrest⟩ := List.head?_eq_some_iff.1 hclose
    rw [hrest] at h
    cases h
    exact hpairs _ rfl

theorem itemsAt_append_of {cs after rest more : List Char} {value : Flow} {d : Char}
    (hcs : afterGap cs ≠ [] ∧ (afterGap cs).head? ≠ some ']')
    (hread : flowAt true (cs ++ more) = .ok (value, after ++ more)) (hafter : afterGap after = d :: rest) :
    itemsAt (cs ++ more) =
      if d = ',' then mapRead (.more (gapOf cs) value (gapOf after)) (itemsAt (rest ++ more))
      else if d = ']' then .ok (.last (gapOf cs) value (gapOf after), rest ++ more)
      else .error (.unexpectedInSequence d) := by
  have hgap := afterGap_append_more hcs.1 more
  have hne := ne_nil_of_afterGap hafter
  rw [← gapOf_append_more hcs.1 more, ← gapOf_append_more hne more]
  refine itemsAt_of_flowAt hread ?_ (by simp [hgap, hcs.1]) ?_
  · rw [afterGap_append_more hne, hafter]
    rfl
  · rw [hgap, List.head?_append_of_ne_nil _ hcs.1]
    exact hcs.2

theorem pairsAt_append_of {cs key afterKey rest more : List Char} {slot : Slot} {d : Char}
    (hcs : afterGap cs ≠ [] ∧ (afterGap cs).head? ≠ some '\x7d') (hkey : keyAt (afterGap cs) = .ok (key, afterKey))
    (hread : slotAt (afterGap afterKey) = .ok (slot, d :: rest)) (hd : endsPlain d = true)
    (hslot : slotAt (afterGap afterKey ++ more) = .ok (slot, d :: rest ++ more)) :
    pairsAt (cs ++ more) =
      if d = ',' then mapRead (.more (gapOf cs) key (gapOf afterKey) slot) (pairsAt (rest ++ more))
      else if d = '\x7d' then .ok (.last (gapOf cs) key (gapOf afterKey) slot, rest ++ more)
      else .error (.unexpectedInMapping d) := by
  obtain ⟨e, tail, htail, he, hcolon⟩ := slotAt_front hread hd
  have hne := ne_nil_of_afterGap htail
  have hgap := afterGap_append_more hcs.1 more
  rw [← gapOf_append_more hcs.1 more, ← gapOf_append_more hne more]
  refine pairsAt_of_slotAt ?_ ?_ (by simp [hgap, hcs.1]) ?_
  · rw [hgap]
    exact keyAt_append_more hkey htail he hcolon more
  · rw [afterGap_append_more hne, hslot]
    rfl
  · rw [hgap, List.head?_append_of_ne_nil _ hcs.1]
    exact hcs.2

mutual

theorem Flow.flowAt_append (value : Flow) {cs left : List Char} (h : flowAt true cs = .ok (value, left))
    (hends : EndsValue left) (more : List Char) : flowAt true (cs ++ more) = .ok (value, left ++ more) := by
  -- The text left behind the value starts with the mark that ends it, so more text behind changes nothing.
  cases value with
  | plain text =>
    cases flowAt_ok h with
    | nothing =>
      obtain ⟨_, _, hnil, -⟩ := hends
      contradiction
    | plain hne hopens hquote => exact flowAt_plain_append hne hopens hquote hends more
  | quoted text =>
    cases flowAt_ok h with
    | quoted hcs hclose =>
      rw [flowAt_append_more (ne_nil_of_afterGap hcs), hcs, List.cons_append, flowAt_quote, closeQuote_append_more hclose]
  | sequence items =>
    cases flowAt_ok h with
    | sequence hcs hread =>
      rw [flowAt_append_more (ne_nil_of_afterGap hcs), hcs, List.cons_append, flowAt_bracket, items.itemsAt_append hread]
      rfl
  | mapping pairs =>
    cases flowAt_ok h with
    | mapping hcs hread =>
      rw [flowAt_append_more (ne_nil_of_afterGap hcs), hcs, List.cons_append, flowAt_brace, pairs.pairsAt_append hread]
      rfl
  | kept tag inner =>
    cases flowAt_ok h with
    | @kept rest _ _ hcs hread =>
      obtain ⟨htake, hdrop⟩ := takeWhile_append_more (hends.ne_nil hread) more
      rw [flowAt_append_more (ne_nil_of_afterGap hcs), hcs, List.cons_append, List.cons_append, flowAt_mark, tagAt_mark,
        htake, hdrop, inner.flowAt_append hread hends more]
      rfl
  | call f argument =>
    cases flowAt_ok h with
    | @call rest _ _ _ hcs hread =>
      rw [← flowAt_afterGap, hcs, flowAt_mark] at h
      rw [flowAt_append_more (ne_nil_of_afterGap hcs), hcs, List.cons_append, flowAt_mark]
      exact tagAt_append_more h (hends.ne_nil hread) (argument.flowAt_append hread hends more)
  | opened =>
    cases flowAt_ok h with
    | opened _ _ hflow => contradiction
    | announced _ _ hflow => contradiction

theorem Items.itemsAt_append (items : Items) {cs left : List Char} (h : itemsAt cs = .ok (items, left)) (more : List Char) :
    itemsAt (cs ++ more) = .ok (items, left ++ more) := by
  cases items with
  | close gap =>
    cases itemsAt_ok h with
    | close hcs =>
      have hne := ne_nil_of_afterGap hcs
      rw [itemsAt_eq, afterGap_append_more hne, gapOf_append_more hne, hcs]
      rfl
  | last before value after =>
    have hcs := afterGap_of_itemsAt h fun _ => Items.noConfusion
    cases itemsAt_ok h with
    | @last _ after' _ hread hleft =>
      rw [flowAt_afterGap] at hread
      exact itemsAt_append_of hcs (value.flowAt_append hread ⟨_, _, hleft, rfl⟩ more) hleft
  | more before value after rest =>
    have hcs := afterGap_of_itemsAt h fun _ => Items.noConfusion
    cases itemsAt_ok h with
    | @more _ after' _ _ _ hread hleft hrest =>
      rw [flowAt_afterGap] at hread
      rw [itemsAt_append_of hcs (value.flowAt_append hread ⟨_, _, hleft, rfl⟩ more) hleft, if_pos rfl,
        rest.itemsAt_append hrest more]
      rfl

theorem Pairs.pairsAt_append (pairs : Pairs) {cs left : List Char} (h : pairsAt cs = .ok (pairs, left)) (more : List Char) :
    pairsAt (cs ++ more) = .ok (pairs, left ++ more) := by
  cases pairs with
  | close gap =>
    cases pairsAt_ok h with
    | close hcs =>
      have hne := ne_nil_of_afterGap hcs
      rw [pairsAt_eq, afterGap_append_more hne, gapOf_append_more hne, hcs]
      rfl
  | last before key gap slot =>
    have hcs := afterGap_of_pairsAt h fun _ => Pairs.noConfusion
    cases pairsAt_ok h with
    | last hkey hslot => exact pairsAt_append_of hcs hkey hslot rfl (slot.slotAt_append hslot rfl more)
  | more before key gap slot rest =>
    have hcs := afterGap_of_pairsAt h fun _ => Pairs.noConfusion
    cases pairsAt_ok h with
    | more hkey hslot hrest =>
      rw [pairsAt_append_of hcs hkey hslot rfl (slot.slotAt_append hslot rfl more), if_pos rfl,
        rest.pairsAt_append hrest more]
      rfl

theorem Slot.slotAt_append (slot : Slot) {cs rest : List Char} {d : Char} (h : slotAt cs = .ok (slot, d :: rest))
    (hd : endsPlain d = true) (more : List Char) : slotAt (cs ++ more) = .ok (slot, d :: rest ++ more) := by
  cases slot with
  | bare =>
    cases slotAt_ok h with
    | bare hcolon => exact slotAt_bare hcolon
  | empty gap =>
    cases slotAt_ok h with
    | @empty rest' _ hends hleft =>
      have hne := ne_nil_of_afterGap hleft
      rw [List.cons_append, slotAt_colon, afterGap_append_more hne, gapOf_append_more hne, hleft]
      rw [hleft] at hends
      exact if_pos hends
  | filled before value final =>
    cases slotAt_ok h with
    | @filled rest' after _ _ hends hread hleft =>
      have hne : afterGap rest' ≠ [] := by
        intro hnil
        rw [hnil] at hends
        contradiction
      have hafter := ne_nil_of_afterGap hleft
      have hends' : endsSlot (afterGap rest' ++ more) = false := by
        obtain ⟨c, tail, hcs⟩ := List.exists_cons_of_ne_nil hne
        rw [hcs] at hends ⊢
        exact hends
      rw [List.cons_append, slotAt_colon, afterGap_append_more hne, gapOf_append_more hne, hends',
        value.flowAt_append hread ⟨_, _, hleft, hd⟩ more]
      simp [afterGap_append_more hafter, gapOf_append_more hafter, hleft]

end

end CloudTemplate.Shorthand
