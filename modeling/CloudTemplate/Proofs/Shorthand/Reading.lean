import CloudTemplate.Shorthand.Expansion
import Mathlib.Data.List.DropRight
/-! Reading values without the bounds that make it end: what is read and what is left, as plain pairs.
One equation for each kind of thing says how its reading goes on. -/
namespace CloudTemplate.Shorthand

def bare {α : Type} {cs : List Char} :
    Except FlowFault (α × Rest cs) → Except FlowFault (α × List Char)
  | .ok (a, rest) => .ok (a, rest.1)
  | .error fault => .error fault

def flowAt (inFlow : Bool) (cs : List Char) : Except FlowFault (Flow × List Char) :=
  bare (readFlow inFlow cs)

def tagAt (inFlow : Bool) (cs : List Char) : Except FlowFault (Flow × List Char) :=
  bare (readTag inFlow cs)

def itemsAt (cs : List Char) : Except FlowFault (Items × List Char) := bare (readItems cs)

def pairsAt (cs : List Char) : Except FlowFault (Pairs × List Char) := bare (readPairs cs)

def slotAt (cs : List Char) : Except FlowFault (Slot × List Char) := bare (readSlot cs)

def keyAt (cs : List Char) : Except FlowFault (List Char × List Char) := bare (readKey cs)

def mapRead {α β : Type} (f : α → β) :
    Except FlowFault (α × List Char) → Except FlowFault (β × List Char)
  | .ok (a, rest) => .ok (f a, rest)
  | .error fault => .error fault

theorem bare_ok {α : Type} {cs : List Char} (a : α) (rest : Rest cs) :
    bare (.ok (a, rest)) = .ok (a, rest.1) := rfl

theorem flowAt_eq (inFlow : Bool) (cs : List Char) :
    flowAt inFlow cs = match afterGap cs with
      | [] => .ok (.plain [], [])
      | c :: rest =>
        if c = '!' then tagAt inFlow rest
        else if c = '[' then mapRead .sequence (itemsAt rest)
        else if c = '\x7b' then mapRead .mapping (pairsAt rest)
        else if c = '"' then
          match closeQuote rest with
          | none => .error .openString
          | some (text, after) => .ok (.quoted text, after)
        else
          .ok (.plain (plainText inFlow (c :: rest)),
            (c :: rest).drop (plainText inFlow (c :: rest)).length) := by
  unfold flowAt
  rw [readFlow]
  split
  · rename_i h; simp only [h]; rfl
  · rename_i c rest h
    simp only [h]
    split
    · unfold tagAt
      cases readTag inFlow rest <;> rfl
    · split
      · unfold itemsAt
        cases readItems rest <;> rfl
      · split
        · unfold pairsAt
          cases readPairs rest <;> rfl
        · split
          · split
            · rename_i hq; simp only [hq]; rfl
            · rename_i hq; simp only [hq]; rfl
          · rfl

theorem tagAt_eq (inFlow : Bool) (cs : List Char) :
    tagAt inFlow cs =
      if cs.head? = some '!' then
        mapRead (.kept ('!' :: cs.takeWhile fun c => !isTagEnd c))
          (flowAt inFlow (cs.dropWhile fun c => !isTagEnd c))
      else
        match Intrinsic.ofTag? (String.ofList (cs.takeWhile Char.isAlphanum)) with
        | none => .error (.unknownTag (String.ofList (cs.takeWhile Char.isAlphanum)))
        | some f =>
          if lacksArgument inFlow (afterName cs) then
            if inFlow then .error (.noArgument (String.ofList (cs.takeWhile Char.isAlphanum)))
            else .ok (.opened f none, afterName cs)
          else if !inFlow && isBlockIndicator (afterName cs) then
            .ok (.opened f (some (afterName cs)), [])
          else mapRead (.call f) (flowAt inFlow (afterName cs)) := by
  unfold tagAt flowAt
  rw [readTag]
  split
  · cases readFlow inFlow (cs.dropWhile fun c => !isTagEnd c) <;> rfl
  · dsimp only
    cases Intrinsic.ofTag? (String.ofList (cs.takeWhile Char.isAlphanum)) with
    | none => rfl
    | some f =>
      dsimp only
      by_cases hlacks : lacksArgument inFlow (afterName cs) = true
      · cases inFlow <;> simp only [hlacks] <;> rfl
      · by_cases hblock : (!inFlow && isBlockIndicator (afterName cs)) = true
        · simp only [hlacks, hblock]
          rfl
        · simp only [hlacks, hblock]
          cases readFlow inFlow (afterName cs) <;> rfl

theorem itemsAt_eq (cs : List Char) :
    itemsAt cs = match afterGap cs with
      | [] => .error .openSequence
      | c :: rest =>
        if c = ']' then .ok (.close (gapOf cs), rest)
        else
          match flowAt true (c :: rest) with
          | .error fault => .error fault
          | .ok (value, after) =>
            match afterGap after with
            | [] => .error .openSequence
            | d :: tail =>
              if d = ',' then mapRead (.more (gapOf cs) value (gapOf after)) (itemsAt tail)
              else if d = ']' then .ok (.last (gapOf cs) value (gapOf after), tail)
              else .error (.unexpectedInSequence d) := by
  -- The reader carries proofs that the text gets shorter; `bare` drops them on both sides, branch by branch.
  change bare (readItems cs) = _
  rw [readItems]
  split
  · rename_i h
    simp only [h]
    rfl
  · rename_i c rest h
    simp only [h]
    split
    · rfl
    · unfold flowAt
      cases readFlow true (c :: rest) with
      | error fault => rfl
      | ok read =>
        obtain ⟨value, after⟩ := read
        rw [bare_ok]
        dsimp only
        split
        · rename_i h'
          simp only [h']
          rfl
        · rename_i d tail h'
          simp only [h']
          by_cases hcomma : d = ','
          · simp only [hcomma, if_true]
            unfold itemsAt
            cases readItems tail <;> rfl
          · by_cases hclose : d = ']' <;> simp only [hcomma, hclose, if_true, if_false] <;> rfl

theorem pairsAt_eq (cs : List Char) :
    pairsAt cs = match afterGap cs with
      | [] => .error .openMapping
      | c :: rest =>
        if c = '\x7d' then .ok (.close (gapOf cs), rest)
        else
          match keyAt (c :: rest) with
          | .error fault => .error fault
          | .ok (key, afterKey) =>
            match slotAt (afterGap afterKey) with
            | .error fault => .error fault
            | .ok (_, []) => .error .openMapping
            | .ok (slot, d :: tail) =>
              if d = ',' then mapRead (.more (gapOf cs) key (gapOf afterKey) slot) (pairsAt tail)
              else if d = '\x7d' then .ok (.last (gapOf cs) key (gapOf afterKey) slot, tail)
              else .error (.unexpectedInMapping d) := by
  change bare (readPairs cs) = _
  rw [readPairs]
  split
  · rename_i h
    simp only [h]
    rfl
  · rename_i c rest h
    simp only [h]
    split
    · rfl
    · unfold keyAt
      cases readKey (c :: rest) with
      | error fault => rfl
      | ok read =>
        obtain ⟨key, afterKey⟩ := read
        rw [bare_ok]
        dsimp only
        unfold slotAt
        cases readSlot (afterGap afterKey.1) with
        | error fault => rfl
        | ok read =>
          obtain ⟨slot, after, hafter⟩ := read
          rw [bare_ok]
          cases after with
          | nil => rfl
          | cons d tail =>
            dsimp only
            by_cases hcomma : d = ','
            · simp only [hcomma, if_true]
              unfold pairsAt
              cases readPairs tail <;> rfl
            · by_cases hclose : d = '\x7d' <;> simp only [hcomma, hclose, if_true, if_false] <;> rfl

theorem slotAt_colon (cs : List Char) :
    slotAt (':' :: cs) =
      if endsSlot (afterGap cs) then .ok (.empty (gapOf cs), afterGap cs)
      else
        match flowAt true (afterGap cs) with
        | .error fault => .error fault
        | .ok (value, after) => .ok (.filled (gapOf cs) value (gapOf after), afterGap after) := by
  unfold slotAt flowAt
  rw [readSlot]
  split
  · rfl
  · cases readFlow true (afterGap cs) <;> rfl

theorem slotAt_bare {cs : List Char} (h : cs.head? ≠ some ':') : slotAt cs = .ok (.bare, cs) := by
  unfold slotAt
  cases cs with
  | nil => rw [readSlot]; rfl; simp
  | cons c cs =>
    rw [readSlot]
    · rfl
    · rintro rest heq
      cases heq
      exact h rfl

theorem keyAt_quote (cs : List Char) :
    keyAt ('"' :: cs) = match closeQuote cs with
      | none => .error .openString
      | some (text, rest) => .ok ('"' :: text ++ ['"'], rest) := by
  unfold keyAt
  rw [readKey]
  split
  · rename_i h
    simp only [h]
    rfl
  · rename_i h
    simp only [h]
    rfl

theorem keyAt_plain {cs : List Char} (h : cs.head? ≠ some '"') :
    keyAt cs = .ok (plainKey cs, cs.drop (plainKey cs).length) := by
  unfold keyAt readKey
  split
  · exact absurd rfl h
  · rfl

theorem expandValue_eq (value : List Char) :
    expandValue value =
      if hasMark value && opensFlow value then
        match flowAt false value with
        | .error fault => .error fault
        | .ok (flow, rest) =>
          match flow.fragment with
          | .waiting functions indicator => .ok (.block functions indicator)
          | fragment => .ok (.inline (fragment.text ++ rest))
      else .ok .unchanged := by
  unfold expandValue flowAt
  split
  · cases readFlow false value <;> rfl
  · rfl

/-- A value with a tag in it whose reading is written out at once. -/
theorem expandValue_of_flowAt {value text rest : List Char} {flow : Flow} (hmark : '!' ∈ value)
    (hopens : opensFlow value = true) (hread : flowAt false value = .ok (flow, rest))
    (hfragment : flow.fragment = .structured text) :
    expandValue value = .ok (.inline (text ++ rest)) := by
  have hmark : hasMark value = true := by simpa [hasMark] using hmark
  rw [expandValue_eq, hmark, hopens, hread]
  simp only [Bool.and_self, if_true, hfragment]
  rfl

theorem afterGap_append {gap : List Char} (h : ∀ c ∈ gap, Text.isGap c = true) (cs : List Char) :
    afterGap (gap ++ cs) = afterGap cs := List.dropWhile_append_of_pos h

theorem gapOf_append {gap : List Char} (h : ∀ c ∈ gap, Text.isGap c = true) (cs : List Char) :
    gapOf (gap ++ cs) = gap ++ gapOf cs := List.takeWhile_append_of_pos h

theorem afterGap_cons {c : Char} (h : Text.isGap c = false) (cs : List Char) :
    afterGap (c :: cs) = c :: cs := by
  rw [afterGap, List.dropWhile_cons_of_neg (by simp [h])]

theorem gapOf_cons {c : Char} (h : Text.isGap c = false) (cs : List Char) : gapOf (c :: cs) = [] := by
  rw [gapOf, List.takeWhile_cons_of_neg (by simp [h])]

theorem afterGap_append_cons {gap : List Char} (h : ∀ c ∈ gap, Text.isGap c = true) {d : Char}
    (hd : Text.isGap d = false) (cs : List Char) : afterGap (gap ++ d :: cs) = d :: cs := by
  rw [afterGap_append h, afterGap_cons hd]

theorem gapOf_append_cons {gap : List Char} (h : ∀ c ∈ gap, Text.isGap c = true) {d : Char}
    (hd : Text.isGap d = false) (cs : List Char) : gapOf (gap ++ d :: cs) = gap := by
  rw [gapOf_append h, gapOf_cons hd, List.append_nil]

theorem itemsAt_close {gap : List Char} (h : ∀ c ∈ gap, Text.isGap c = true) (rest : List Char) :
    itemsAt (gap ++ ']' :: rest) = .ok (.close gap, rest) := by
  rw [itemsAt_eq, afterGap_append_cons h rfl, gapOf_append_cons h rfl]
  rfl

theorem pairsAt_close {gap : List Char} (h : ∀ c ∈ gap, Text.isGap c = true) (rest : List Char) :
    pairsAt (gap ++ '\x7d' :: rest) = .ok (.close gap, rest) := by
  rw [pairsAt_eq, afterGap_append_cons h rfl, gapOf_append_cons h rfl]
  rfl

theorem flowAt_afterGap (inFlow : Bool) (cs : List Char) :
    flowAt inFlow (afterGap cs) = flowAt inFlow cs := by
  have hgap : afterGap (afterGap cs) = afterGap cs := by
    rw [afterGap, afterGap, List.dropWhile_idempotent]
  rw [flowAt_eq, flowAt_eq, hgap]

theorem flowAt_mark (inFlow : Bool) (cs : List Char) : flowAt inFlow ('!' :: cs) = tagAt inFlow cs := by
  rw [flowAt_eq, afterGap_cons rfl]
  rfl

/-- A tag that is no shorthand is kept before what is read behind its name. -/
theorem tagAt_mark (inFlow : Bool) (cs : List Char) :
    tagAt inFlow ('!' :: cs) =
      mapRead (.kept ('!' :: '!' :: cs.takeWhile fun c => !isTagEnd c))
        (flowAt inFlow (cs.dropWhile fun c => !isTagEnd c)) := by
  rw [tagAt_eq]
  rfl

theorem flowAt_bracket (inFlow : Bool) (cs : List Char) :
    flowAt inFlow ('[' :: cs) = mapRead .sequence (itemsAt cs) := by
  rw [flowAt_eq, afterGap_cons rfl]
  rfl

theorem flowAt_brace (inFlow : Bool) (cs : List Char) :
    flowAt inFlow ('\x7b' :: cs) = mapRead .mapping (pairsAt cs) := by
  rw [flowAt_eq, afterGap_cons rfl]
  rfl

theorem flowAt_quote (inFlow : Bool) (cs : List Char) :
    flowAt inFlow ('"' :: cs) = match closeQuote cs with
      | none => .error .openString
      | some (text, after) => .ok (.quoted text, after) := by
  rw [flowAt_eq, afterGap_cons rfl]
  rfl

theorem ofTag?_tag (f : Intrinsic) : Intrinsic.ofTag? f.tag = some f := by cases f <;> rfl

theorem isAlphanum_of_mem_tag {f : Intrinsic} {c : Char} (h : c ∈ f.tag.toList) :
    c.isAlphanum = true := by
  have hall : f.tag.toList.all Char.isAlphanum = true := by cases f <;> rfl
  exact List.all_eq_true.1 hall c h

end CloudTemplate.Shorthand
