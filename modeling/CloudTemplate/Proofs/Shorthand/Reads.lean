import CloudTemplate.Proofs.Shorthand.Reading
import CloudTemplate.Proofs.Shorthand.Node
/-! Readings that succeed, taken apart: what stood in the text, and which readings of parts of it they
went through. -/
namespace CloudTemplate.Shorthand

inductive ReadsFlow (inFlow : Bool) (cs : List Char) : Flow → List Char → Prop
  | nothing (h : afterGap cs = []) : ReadsFlow inFlow cs (.plain []) []
  | plain (h : afterGap cs ≠ []) (hopens : opensFlow (afterGap cs) = false) (hquote : (afterGap cs).head? ≠ some '"') :
      ReadsFlow inFlow cs (.plain (plainText inFlow (afterGap cs)))
        ((afterGap cs).drop (plainText inFlow (afterGap cs)).length)
  | quoted {rest text left : List Char} (h : afterGap cs = '"' :: rest) (hclose : closeQuote rest = some (text, left)) :
      ReadsFlow inFlow cs (.quoted text) left
  | sequence {rest left : List Char} {items : Items} (h : afterGap cs = '[' :: rest)
      (hread : itemsAt rest = .ok (items, left)) : ReadsFlow inFlow cs (.sequence items) left
  | mapping {rest left : List Char} {pairs : Pairs} (h : afterGap cs = '\x7b' :: rest)
      (hread : pairsAt rest = .ok (pairs, left)) : ReadsFlow inFlow cs (.mapping pairs) left
  | kept {rest left : List Char} {value : Flow} (h : afterGap cs = '!' :: '!' :: rest)
      (hread : flowAt inFlow (rest.dropWhile fun c => !isTagEnd c) = .ok (value, left)) :
      ReadsFlow inFlow cs (.kept ('!' :: '!' :: rest.takeWhile fun c => !isTagEnd c) value) left
  | call {rest left : List Char} {value : Flow} (f : Intrinsic) (h : afterGap cs = '!' :: rest)
      (hread : flowAt inFlow (afterName rest) = .ok (value, left)) : ReadsFlow inFlow cs (.call f value) left
  | opened {rest : List Char} (f : Intrinsic) (h : afterGap cs = '!' :: rest) (hflow : inFlow = false)
      (hname : afterName rest = []) : ReadsFlow inFlow cs (.opened f none) []
  | announced {rest : List Char} (f : Intrinsic) (h : afterGap cs = '!' :: rest) (hflow : inFlow = false)
      (hindicator : isBlockIndicator (afterName rest) = true) :
      ReadsFlow inFlow cs (.opened f (some (afterName rest))) []

theorem mapRead_ok {α β : Type} {f : α → β} {result : Except FlowFault (α × List Char)} {b : β} {rest : List Char}
    (h : mapRead f result = .ok (b, rest)) : ∃ a, result = .ok (a, rest) ∧ f a = b := by
  cases result with
  | error fault => contradiction
  | ok read =>
    cases h
    exact ⟨_, rfl, rfl⟩

theorem flowAt_ok {inFlow : Bool} {cs left : List Char} {value : Flow} (h : flowAt inFlow cs = .ok (value, left)) :
    ReadsFlow inFlow cs value left := by
  -- One branch of the reader for each constructor, in the order of the reader; the others fail.
  rw [flowAt_eq] at h
  split at h
  · rename_i hgap
    cases h
    exact .nothing hgap
  · rename_i c rest hgap
    split at h
    · rename_i hc
      rw [hc] at hgap
      rw [tagAt_eq] at h
      split at h
      · rename_i hhead
        obtain ⟨tail, rfl⟩ := List.head?_eq_some_iff.1 hhead
        obtain ⟨inner, hread, rfl⟩ := mapRead_ok h
        exact .kept hgap hread
      · split at h
        · contradiction
        · rename_i f hf
          split at h
          · rename_i hlacks
            split at h
            · contradiction
            · rename_i hflow
              have hflow : inFlow = false := by simpa using hflow
              cases h
              have hname : afterName rest = [] := by
                cases hname : afterName rest with
                | nil => rfl
                | cons d ds => simp [hname, hflow, lacksArgument] at hlacks
              rw [hname]
              exact .opened f hgap hflow hname
          · split at h
            · rename_i hblock
              cases h
              simp only [Bool.and_eq_true, Bool.not_eq_true'] at hblock
              exact .announced f hgap hblock.1 hblock.2
            · obtain ⟨inner, hread, rfl⟩ := mapRead_ok h
              exact .call f hgap hread
    · rename_i hmark
      split at h
      · rename_i hc
        rw [hc] at hgap
        obtain ⟨items, hread, rfl⟩ := mapRead_ok h
        exact .sequence hgap hread
      · rename_i hbracket
        split at h
        · rename_i hc
          rw [hc] at hgap
          obtain ⟨pairs, hread, rfl⟩ := mapRead_ok h
          exact .mapping hgap hread
        · rename_i hbrace
          split at h
          · rename_i hc
            rw [hc] at hgap
            split at h
            · contradiction
            · rename_i hclose
              cases h
              exact .quoted hgap hclose
          · rename_i hquote
            cases h
            rw [← hgap]
            refine .plain (by simp [hgap]) ?_ (by simpa [hgap] using hquote)
            simp [hgap, opensFlow, hmark, hbracket, hbrace]

inductive ReadsItems (cs : List Char) : Items → List Char → Prop
  | close {left : List Char} (h : afterGap cs = ']' :: left) : ReadsItems cs (.close (gapOf cs)) left
  | last {value : Flow} {after left : List Char} (hread : flowAt true (afterGap cs) = .ok (value, after))
      (hafter : afterGap after = ']' :: left) : ReadsItems cs (.last (gapOf cs) value (gapOf after)) left
  | more {value : Flow} {after rest left : List Char} {items : Items}
      (hread : flowAt true (afterGap cs) = .ok (value, after)) (hafter : afterGap after = ',' :: rest)
      (hrest : itemsAt rest = .ok (items, left)) : ReadsItems cs (.more (gapOf cs) value (gapOf after) items) left

theorem itemsAt_ok {cs left : List Char} {items : Items} (h : itemsAt cs = .ok (items, left)) :
    ReadsItems cs items left := by
  rw [itemsAt_eq] at h
  split at h
  · contradiction
  · rename_i c rest hgap
    split at h
    · rename_i hc
      cases h
      exact .close (hc ▸ hgap)
    · rw [← hgap] at h
      split at h
      · contradiction
      · rename_i value after hread
        split at h
        · contradiction
        · rename_i d tail hafter
          split at h
          · rename_i hd
            obtain ⟨items, hrest, rfl⟩ := mapRead_ok h
            exact .more hread (hd ▸ hafter) hrest
          · split at h
            · rename_i hd
              cases h
              exact .last hread (hd ▸ hafter)
            · contradiction

inductive ReadsPairs (cs : List Char) : Pairs → List Char → Prop
  | close {left : List Char} (h : afterGap cs = '\x7d' :: left) : ReadsPairs cs (.close (gapOf cs)) left
  | last {key afterKey left : List Char} {slot : Slot} (hkey : keyAt (afterGap cs) = .ok (key, afterKey))
      (hslot : slotAt (afterGap afterKey) = .ok (slot, '\x7d' :: left)) :
      ReadsPairs cs (.last (gapOf cs) key (gapOf afterKey) slot) left
  | more {key afterKey rest left : List Char} {slot : Slot} {pairs : Pairs}
      (hkey : keyAt (afterGap cs) = .ok (key, afterKey))
      (hslot : slotAt (afterGap afterKey) = .ok (slot, ',' :: rest)) (hrest : pairsAt rest = .ok (pairs, left)) :
      ReadsPairs cs (.more (gapOf cs) key (gapOf afterKey) slot pairs) left

theorem pairsAt_ok {cs left : List Char} {pairs : Pairs} (h : pairsAt cs = .ok (pairs, left)) :
    ReadsPairs cs pairs left := by
  rw [pairsAt_eq] at h
  split at h
  · contradiction
  · rename_i c rest hgap
    split at h
    · rename_i hc
      cases h
      exact .close (hc ▸ hgap)
    · rw [← hgap] at h
      split at h
      · contradiction
      · rename_i key afterKey hkey
        split at h
        · contradiction
        · contradiction
        · rename_i slot d tail hslot
          split at h
          · rename_i hd
            obtain ⟨pairs, hrest, rfl⟩ := mapRead_ok h
            exact .more hkey (hd ▸ hslot) hrest
          · split at h
            · rename_i hd
              cases h
              exact .last hkey (hd ▸ hslot)
            · contradiction

inductive ReadsSlot : List Char → Slot → List Char → Prop
  | bare {cs : List Char} (h : cs.head? ≠ some ':') : ReadsSlot cs .bare cs
  | empty {cs left : List Char} (h : endsSlot (afterGap cs) = true) (hleft : afterGap cs = left) :
      ReadsSlot (':' :: cs) (.empty (gapOf cs)) left
  | filled {cs after left : List Char} {value : Flow} (h : endsSlot (afterGap cs) = false)
      (hread : flowAt true (afterGap cs) = .ok (value, after)) (hleft : afterGap after = left) :
      ReadsSlot (':' :: cs) (.filled (gapOf cs) value (gapOf after)) left

theorem slotAt_ok {cs left : List Char} {slot : Slot} (h : slotAt cs = .ok (slot, left)) : ReadsSlot cs slot left := by
  by_cases hcolon : cs.head? = some ':'
  · obtain ⟨rest, rfl⟩ := List.head?_eq_some_iff.1 hcolon
    rw [slotAt_colon] at h
    split at h
    · rename_i hends
      cases h
      exact .empty hends rfl
    · rename_i hends
      split at h
      · contradiction
      · rename_i hread
        cases h
        exact .filled (by simpa using hends) hread rfl
  · rw [slotAt_bare hcolon] at h
    cases h
    exact .bare hcolon

/-- A text between quotes ends at the first quote that no backslash precedes. -/
theorem closeQuote_ok {cs text rest : List Char} (h : closeQuote cs = some (text, rest)) :
    staysQuoted text = true ∧ cs = text ++ '"' :: rest := by
  induction cs using escapeInduction generalizing text with
  | nil => contradiction
  | last => contradiction
  | quote cs =>
    cases h
    exact ⟨rfl, rfl⟩
  | pair c cs ih =>
    obtain ⟨split, hsplit, heq⟩ := Option.map_eq_some_iff.1 h
    cases heq
    obtain ⟨hstays, hcs⟩ := ih hsplit
    exact ⟨hstays, by rw [hcs]; rfl⟩
  | plain c cs hquote hbackslash ih =>
    rw [closeQuote_cons hquote hbackslash] at h
    obtain ⟨split, hsplit, heq⟩ := Option.map_eq_some_iff.1 h
    cases heq
    obtain ⟨hstays, hcs⟩ := ih hsplit
    exact ⟨by rw [staysQuoted_cons hquote hbackslash, hstays], by rw [hcs]; rfl⟩

end CloudTemplate.Shorthand
