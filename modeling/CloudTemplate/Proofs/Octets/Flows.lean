import CloudTemplate.Proofs.Octets.Scanning
/-! Values scanned with a cursor. A collection is scanned in turns; a turn that does not end it goes on behind the place
where it started, even if it finds an empty scalar or key there: `turnAt_again`. A number of steps that the length of the
text bounds is enough: `faithful`. -/
namespace CloudTemplate.Octets
open Text Shorthand

inductive Turn (π : Type) where
  | done (text : List Char) (place : π)
  | again (text : List Char) (place : π)
  deriving DecidableEq, Repr

def Turn.map {π ρ : Type} (f : π → ρ) : Turn π → Turn ρ
  | .done text place => .done text (f place)
  | .again text place => .again text (f place)

inductive Kind where
  | sequence
  | mapping
  deriving DecidableEq, Repr

namespace Kind

def close : Kind → Char
  | .sequence => ']'
  | .mapping => '\x7d'

def unclosed : Kind → FlowFault
  | .sequence => .openSequence
  | .mapping => .openMapping

def unexpected : Kind → Char → FlowFault
  | .sequence => .unexpectedInSequence
  | .mapping => .unexpectedInMapping

def refusal (kind : Kind) (b : Char) : String :=
  "unexpected '" ++ String.singleton b ++ match kind with
    | .sequence => "' in flow sequence"
    | .mapping => "' in flow mapping"

theorem isWide_close (kind : Kind) : isWide kind.close = false := by
  cases kind <;> rfl

theorem message_unexpected (kind : Kind) (c : Char) : (kind.unexpected c).message = kind.refusal (leadUnit c) := by
  cases kind <;> rfl

end Kind

section Scans

variable (src : List Char)

def scanKey (b : Char) (pos : Nat) : Scan (List Char × Nat) :=
  if b = '"' then scanQuoted src pos else scanPlainKey src pos

def scanSlotValue (node : Nat → Scan (Scanned × Nat)) (pos : Nat) : Scan (List Char × Nat) :=
  match peek src pos with
  | none => pure ([], pos)
  | some b =>
    if b = ',' ∨ b = '\x7d' then pure ([], pos)
    else do
      let (value, pos) ← node pos
      pure (value.text, pos)

def scanSlot (node : Nat → Scan (Scanned × Nat)) (pos : Nat) : Scan (List Char × Nat) :=
  if peek src pos = some ':' then do
    let (before, pos) ← scanGap src (pos + 1)
    let (value, pos) ← scanSlotValue src node pos
    let (behind, pos) ← scanGap src pos
    pure (':' :: before ++ value ++ behind, pos)
  else pure ([], pos)

def scanPart (node : Nat → Scan (Scanned × Nat)) (kind : Kind) (b : Char) (pos : Nat) : Scan (List Char × Nat) :=
  match kind with
  | .sequence => do
    let (item, pos) ← node pos
    let (behind, pos) ← scanGap src pos
    pure (item.text ++ behind, pos)
  | .mapping => do
    let (key, pos) ← scanKey src b pos
    let (behind, pos) ← scanGap src pos
    let (slot, pos) ← scanSlot src node pos
    pure (key ++ behind ++ slot, pos)

def finishTurn (kind : Kind) (text : List Char) (pos : Nat) : Scan (Turn Nat) :=
  match peek src pos with
  | none => fail kind.unclosed
  | some b =>
    if b = ',' then pure (.again (text ++ [b]) (pos + 1))
    else if b = kind.close then pure (.again text pos)
    else .error (.fault (kind.refusal b))

def takeTurn (node : Nat → Scan (Scanned × Nat)) (kind : Kind) (pos : Nat) : Scan (Turn Nat) := do
  let (before, pos) ← scanGap src pos
  match peek src pos with
  | none => fail kind.unclosed
  | some b =>
    if b = kind.close then pure (.done (before ++ [b]) (pos + 1))
    else do
      let (part, pos) ← scanPart src node kind b pos
      finishTurn src kind (before ++ part) pos

mutual

def scanNode : Nat → Bool → Nat → Scan (Scanned × Nat)
  | 0, _, _ => .error .unfinished
  | fuel + 1, inFlow, pos => do
    let (_, pos) ← scanGap src pos
    match peek src pos with
    | none => pure (.plain [], pos)
    | some b =>
      if b = '!' then scanTag fuel inFlow pos
      else if b = '[' then scanCollection fuel .sequence [b] (pos + 1)
      else if b = '\x7b' then scanCollection fuel .mapping [b] (pos + 1)
      else if b = '"' then do
        let (text, pos) ← scanQuoted src pos
        pure (.quoted text, pos)
      else do
        let (text, pos) ← scanPlain src inFlow pos
        pure (.plain text, pos)
termination_by structural fuel => fuel

def scanTag : Nat → Bool → Nat → Scan (Scanned × Nat)
  | 0, _, _ => .error .unfinished
  | fuel + 1, inFlow, start =>
    if peek src (start + 1) = some '!' then do
      let pos ← skip (fun b => !isTagEnd b) (units src) (start + 1)
      let tag ← slice src start pos
      let (value, pos) ← scanNode fuel inFlow pos
      pure (.structured (tag ++ ' ' :: value.text), pos)
    else do
      let pos ← skip Char.isAlphanum (units src) (start + 1)
      let name ← slice src (start + 1) pos
      match Intrinsic.ofTag? (String.ofList name) with
      | none => fail (.unknownTag (String.ofList name))
      | some f => do
        let (_, pos) ← scanGap src pos
        let rest ← slice src pos (units src).length
        let lacks := match peek src pos with
          | none => true
          | some b => inFlow && endsPlain b
        if lacks then
          if inFlow then fail (.noArgument (String.ofList name)) else pure (.waiting [f.longName] none, pos)
        else if !inFlow && isBlockIndicator rest then pure (.waiting [f.longName] (some rest), (units src).length)
        else do
          let (argument, pos) ← scanNode fuel inFlow pos
          let call ← apply f.longName argument
          pure (call, pos)
termination_by structural fuel => fuel

def scanCollection : Nat → Kind → List Char → Nat → Scan (Scanned × Nat)
  | 0, _, _, _ => .error .unfinished
  | fuel + 1, kind, out, pos => do
    match ← takeTurn src (scanNode fuel true) kind pos with
    | .done text pos => pure (.structured (out ++ text), pos)
    | .again text pos => scanCollection fuel kind (out ++ text) pos
termination_by structural fuel => fuel

end

end Scans

def lift {α β : Type} (f : α → β) : Except FlowFault α → Scan β
  | .ok a => .ok (f a)
  | .error fault => fail fault

def partAt : Kind → List Char → Except FlowFault (List Char × List Char)
  | .sequence, cs =>
    match flowAt true cs with
    | .error fault => .error fault
    | .ok (value, after) => .ok (value.fragment.text ++ gapOf after, afterGap after)
  | .mapping, cs =>
    match keyAt cs with
    | .error fault => .error fault
    | .ok (key, after) => mapRead (fun slot => key ++ gapOf after ++ slot.text) (slotAt (afterGap after))

def finishAt (kind : Kind) (text : List Char) : List Char → Except FlowFault (Turn (List Char))
  | [] => .error kind.unclosed
  | d :: tail =>
    if d = ',' then .ok (.again (text ++ [d]) tail)
    else if d = kind.close then .ok (.again text (d :: tail))
    else .error (kind.unexpected d)

def turnAt (kind : Kind) (cs : List Char) : Except FlowFault (Turn (List Char)) :=
  match afterGap cs with
  | [] => .error kind.unclosed
  | c :: rest =>
    if c = kind.close then .ok (.done (gapOf cs ++ [c]) rest)
    else
      match partAt kind (c :: rest) with
      | .error fault => .error fault
      | .ok (part, left) => finishAt kind (gapOf cs ++ part) left

def collectionAt : Kind → List Char → Except FlowFault (List Char × List Char)
  | .sequence, cs => mapRead Items.text (itemsAt cs)
  | .mapping, cs => mapRead Pairs.text (pairsAt cs)

def resume (kind : Kind) : Except FlowFault (Turn (List Char)) → Except FlowFault (List Char × List Char)
  | .error fault => .error fault
  | .ok (.done text rest) => .ok (text, rest)
  | .ok (.again text rest) => mapRead (text ++ ·) (collectionAt kind rest)

theorem collectionAt_close (kind : Kind) (rest : List Char) :
    collectionAt kind (kind.close :: rest) = .ok ([kind.close], rest) := by
  cases kind with
  | sequence =>
    have hend := @itemsAt_close [] (List.forall_mem_nil _) rest
    rw [List.nil_append] at hend
    rw [collectionAt, Kind.close, hend]
    rfl
  | mapping =>
    have hend := @pairsAt_close [] (List.forall_mem_nil _) rest
    rw [List.nil_append] at hend
    rw [collectionAt, Kind.close, hend]
    rfl

theorem resume_finishAt (kind : Kind) (text : List Char) (d : Char) (tail : List Char) :
    resume kind (finishAt kind text (d :: tail)) =
      if d = ',' then mapRead (text ++ ',' :: ·) (collectionAt kind tail)
      else if d = kind.close then .ok (text ++ [d], tail)
      else .error (kind.unexpected d) := by
  rw [finishAt]
  by_cases hcomma : d = ','
  · rw [if_pos hcomma, if_pos hcomma, hcomma, resume]
    simp only [List.append_assoc, List.singleton_append]
  · rw [if_neg hcomma, if_neg hcomma]
    by_cases hclose : d = kind.close
    · rw [if_pos hclose, if_pos hclose, hclose, resume, collectionAt_close]
      rfl
    · rw [if_neg hclose, if_neg hclose]
      rfl

theorem itemsAt_turn (cs : List Char) : collectionAt .sequence cs = resume .sequence (turnAt .sequence cs) := by
  rw [collectionAt, itemsAt_eq, turnAt]
  cases afterGap cs with
  | nil => rfl
  | cons c rest =>
    dsimp only
    by_cases hclose : c = ']'
    · rw [if_pos hclose, if_pos (show c = Kind.close .sequence from hclose), hclose]
      rfl
    · rw [if_neg hclose, if_neg (show c ≠ Kind.close .sequence from hclose), partAt]
      cases flowAt true (c :: rest) with
      | error fault => rfl
      | ok read =>
        obtain ⟨value, after⟩ := read
        dsimp only
        cases afterGap after with
        | nil => rfl
        | cons d tail =>
          rw [resume_finishAt]
          dsimp only
          by_cases hcomma : d = ','
          · rw [if_pos hcomma, if_pos hcomma, collectionAt]
            cases itemsAt tail with
            | error fault => rfl
            | ok items => simp [mapRead, Items.text]
          · rw [if_neg hcomma, if_neg hcomma]
            by_cases hlast : d = ']'
            · rw [if_pos hlast, if_pos (show d = Kind.close .sequence from hlast), hlast]
              simp [mapRead, Items.text]
            · rw [if_neg hlast, if_neg (show d ≠ Kind.close .sequence from hlast)]
              rfl

theorem pairsAt_turn (cs : List Char) : collectionAt .mapping cs = resume .mapping (turnAt .mapping cs) := by
  rw [collectionAt, pairsAt_eq, turnAt]
  cases afterGap cs with
  | nil => rfl
  | cons c rest =>
    dsimp only
    by_cases hclose : c = '\x7d'
    · rw [if_pos hclose, if_pos (show c = Kind.close .mapping from hclose), hclose]
      rfl
    · rw [if_neg hclose, if_neg (show c ≠ Kind.close .mapping from hclose), partAt]
      cases keyAt (c :: rest) with
      | error fault => rfl
      | ok read =>
        obtain ⟨key, after⟩ := read
        dsimp only
        cases slotAt (afterGap after) with
        | error fault => rfl
        | ok read =>
          obtain ⟨slot, left⟩ := read
          cases left with
          | nil => rfl
          | cons d tail =>
            rw [mapRead, resume_finishAt]
            dsimp only
            by_cases hcomma : d = ','
            · rw [if_pos hcomma, if_pos hcomma, collectionAt]
              cases pairsAt tail with
              | error fault => rfl
              | ok pairs => simp [mapRead, Pairs.text]
            · rw [if_neg hcomma, if_neg hcomma]
              by_cases hlast : d = '\x7d'
              · rw [if_pos hlast, if_pos (show d = Kind.close .mapping from hlast), hlast]
                simp [mapRead, Pairs.text]
              · rw [if_neg hlast, if_neg (show d ≠ Kind.close .mapping from hlast)]
                rfl

/-- A collection is read turn by turn. -/
theorem collectionAt_turn (kind : Kind) (cs : List Char) : collectionAt kind cs = resume kind (turnAt kind cs) := by
  cases kind with
  | sequence => exact itemsAt_turn cs
  | mapping => exact pairsAt_turn cs

theorem slotAt_suffix {cs left : List Char} {slot : Slot} (h : slotAt cs = .ok (slot, left)) : left <:+ cs := by
  cases slotAt_ok h with
  | bare => exact List.suffix_refl _
  | empty _ hleft => exact hleft ▸ (afterGap_suffix _).trans (List.suffix_cons _ _)
  | filled _ hread hleft =>
    have hvalue := (Flow.suffix _ hread).trans ((afterGap_suffix _).trans (List.suffix_cons ':' _))
    exact hleft ▸ (afterGap_suffix _).trans hvalue

theorem partAt_suffix {kind : Kind} {cs part left : List Char} (h : partAt kind cs = .ok (part, left)) :
    left <:+ cs := by
  cases kind with
  | sequence =>
    rw [partAt] at h
    cases hread : flowAt true cs with
    | error fault => simp [hread] at h
    | ok read =>
      rw [hread] at h
      cases h
      exact (afterGap_suffix _).trans (read.1.suffix hread)
  | mapping =>
    rw [partAt] at h
    cases hkey : keyAt cs with
    | error fault => simp [hkey] at h
    | ok read =>
      rw [hkey] at h
      obtain ⟨slot, hslot, -⟩ := mapRead_ok h
      exact (slotAt_suffix hslot).trans ((afterGap_suffix _).trans (keyAt_suffix hkey))

/-- A turn that goes on is over behind a comma, or in front of the mark that ends the collection. -/
theorem finishAt_again {kind : Kind} {text out cs left : List Char} (h : finishAt kind text cs = .ok (.again out left)) :
    cs = ',' :: left ∨ cs = left ∧ left.head? = some kind.close := by
  cases cs with
  | nil => contradiction
  | cons d tail =>
    rw [finishAt] at h
    split at h
    · rename_i hcomma
      cases h
      exact .inl (hcomma ▸ rfl)
    · split at h
      · rename_i hclose
        cases h
        exact .inr ⟨rfl, congrArg some hclose⟩
      · contradiction

/-- The next turn starts further on, even if there is nothing in the part: the mark that ends the collection would have
ended it before the part. -/
theorem turnAt_again {kind : Kind} {cs text left : List Char} (h : turnAt kind cs = .ok (.again text left)) :
    left <:+ cs ∧ left.length < cs.length := by
  have hgap := afterGap_suffix cs
  rw [turnAt] at h
  generalize afterGap cs = front at h hgap
  cases front with
  | nil => contradiction
  | cons c more =>
    dsimp only at h
    by_cases hclose : c = kind.close
    · rw [if_pos hclose] at h
      cases h
    · rw [if_neg hclose] at h
      cases hpart : partAt kind (c :: more) with
      | error fault => simp [hpart] at h
      | ok read =>
        rw [hpart] at h
        have hbehind := partAt_suffix hpart
        obtain hcomma | ⟨hsame, hlast⟩ := finishAt_again h
        · rw [hcomma] at hbehind
          have hleft := hbehind.trans hgap
          exact ⟨(List.suffix_cons ',' left).trans hleft, hleft.length_le⟩
        · rw [hsame] at hbehind
          refine ⟨hbehind.trans hgap, Nat.lt_of_lt_of_le (Nat.lt_of_le_of_ne hbehind.length_le fun hlength => ?_)
            hgap.length_le⟩
          rw [hbehind.eq_of_length hlength] at hlast
          exact hclose (Option.some.inj hlast)

theorem afterGap_afterGap (cs : List Char) : afterGap (afterGap cs) = afterGap cs := by
  rw [afterGap, afterGap, List.dropWhile_idempotent]

theorem gapOf_afterGap (cs : List Char) : gapOf (afterGap cs) = [] := by
  have hhead := isGap_head_afterGap cs
  cases hcs : afterGap cs with
  | nil => rfl
  | cons c more => exact gapOf_cons (hhead c (by rw [hcs]; rfl)) more

def placed (src : List Char) (read : Flow × List Char) : Scanned × Nat :=
  (.ofFragment read.1.fragment, offset src read.2)

def Reads (src : List Char) (bound : Nat) (node : Nat → Scan (Scanned × Nat)) : Prop :=
  ∀ {rest : List Char}, rest <:+ src → rest.length ≤ bound →
    node (offset src rest) = lift (placed src) (flowAt true rest)

section Places

variable {src rest : List Char} {node : Nat → Scan (Scanned × Nat)} (hnode : Reads src rest.length node)
  (h : rest <:+ src)

include hnode h

omit hnode h in
theorem scanKey_offset {c : Char} (h : c :: rest <:+ src) :
    scanKey src (leadUnit c) (offset src (c :: rest)) =
      lift (fun read => (read.1, offset src read.2)) (keyAt (c :: rest)) := by
  rw [scanKey]
  by_cases hquote : c = '"'
  · subst hquote
    rw [if_pos (leadUnit_narrow rfl), scanQuoted_offset h, keyAt_quote]
    cases closeQuote rest with
    | none => rfl
    | some split => rfl
  · have hhead : (c :: rest).head? ≠ some '"' := by simpa using hquote
    rw [if_neg (mt (leadUnit_eq_iff rfl).1 hquote), scanPlainKey_offset h, keyAt_plain hhead]
    rfl

theorem scanSlotValue_offset :
    scanSlotValue src node (offset src rest) =
      if endsSlot rest then .ok ([], offset src rest)
      else lift (fun read => (read.1.fragment.text, offset src read.2)) (flowAt true rest) := by
  rw [scanSlotValue, peek_offset h]
  cases rest with
  | nil => rfl
  | cons c more =>
    have hends : (leadUnit c = ',' ∨ leadUnit c = '\x7d') ↔ endsSlot (c :: more) = true := by
      rw [leadUnit_eq_iff rfl, leadUnit_eq_iff rfl]
      simp [endsSlot]
    simp only [List.head?_cons, Option.map_some, hends]
    by_cases hslot : endsSlot (c :: more) = true
    · rw [if_pos hslot, if_pos hslot]
      rfl
    · rw [if_neg hslot, if_neg hslot, hnode h (Nat.le_refl _)]
      cases flowAt true (c :: more) with
      | error fault => rfl
      | ok read => simp [lift, placed]

theorem scanSlot_offset :
    scanSlot src node (offset src rest) = lift (fun read => (read.1.text, offset src read.2)) (slotAt rest) := by
  rw [scanSlot, peek_offset h]
  by_cases hcolon : rest.head? = some ':'
  · obtain ⟨more, rfl⟩ := List.head?_eq_some_iff.1 hcolon
    have hmore := (List.suffix_cons ':' more).trans h
    have hgap := (afterGap_suffix more).trans hmore
    have hlength : (afterGap more).length ≤ (':' :: more).length := Nat.le_succ_of_le (length_afterGap_le more)
    have hvalue := scanSlotValue_offset (fun hs hle => hnode hs (Nat.le_trans hle hlength)) hgap
    have hpeek : (':' :: more).head?.map leadUnit = some ':' := congrArg some (leadUnit_narrow rfl)
    rw [if_pos hpeek, offset_add_one rfl h, scanGap_offset hmore, ok_bind, slotAt_colon]
    dsimp only
    rw [hvalue]
    by_cases hends : endsSlot (afterGap more) = true
    · rw [if_pos hends, if_pos hends, ok_bind]
      dsimp only
      rw [scanGap_offset hgap, ok_bind, afterGap_afterGap, gapOf_afterGap]
      simp [lift, Slot.text]
    · rw [if_neg hends, if_neg hends]
      cases hread : flowAt true (afterGap more) with
      | error fault => rfl
      | ok read =>
        obtain ⟨value, after⟩ := read
        simp only [lift, ok_bind]
        rw [scanGap_offset ((value.suffix hread).trans hgap), ok_bind]
        simp [Slot.text]
  · have hpeek : rest.head?.map leadUnit ≠ some ':' := by
      cases rest with
      | nil => simp
      | cons c more =>
        simpa [leadUnit_eq_iff (d := ':') rfl] using hcolon
    rw [if_neg hpeek, slotAt_bare hcolon]
    rfl

theorem scanPart_offset (kind : Kind) {c : Char} {more : List Char} (hrest : rest = c :: more) :
    scanPart src node kind (leadUnit c) (offset src rest) =
      lift (fun read => (read.1, offset src read.2)) (partAt kind rest) := by
  cases kind with
  | sequence =>
    rw [scanPart, partAt, hnode h (Nat.le_refl _)]
    cases hread : flowAt true rest with
    | error fault => rfl
    | ok read =>
      obtain ⟨value, after⟩ := read
      simp only [lift, placed, ok_bind]
      rw [scanGap_offset ((value.suffix hread).trans h), ok_bind]
      simp
  | mapping =>
    rw [scanPart, partAt]
    dsimp only
    rw [hrest] at h ⊢
    rw [scanKey_offset h]
    cases hkey : keyAt (c :: more) with
    | error fault => rfl
    | ok read =>
      obtain ⟨key, after⟩ := read
      have hafter := keyAt_suffix hkey
      have hfront := (afterGap_suffix after).trans hafter
      simp only [lift, ok_bind]
      rw [scanGap_offset (hafter.trans h), ok_bind]
      dsimp only
      rw [scanSlot_offset (fun hs hle => hnode hs (Nat.le_trans hle (hrest ▸ hfront.length_le))) (hfront.trans h)]
      cases slotAt (afterGap after) <;> rfl

omit hnode in
theorem finishTurn_offset (kind : Kind) (text : List Char) :
    finishTurn src kind text (offset src rest) = lift (Turn.map (offset src)) (finishAt kind text rest) := by
  rw [finishTurn, peek_offset h]
  cases rest with
  | nil => rfl
  | cons d tail =>
    rw [finishAt]
    simp only [List.head?_cons, Option.map_some, leadUnit_eq_iff (d := ',') rfl, leadUnit_eq_iff kind.isWide_close]
    by_cases hcomma : d = ','
    · subst hcomma
      rw [if_pos rfl, if_pos rfl, leadUnit_narrow rfl, offset_add_one rfl h]
      rfl
    · rw [if_neg hcomma, if_neg hcomma]
      by_cases hclose : d = kind.close
      · rw [if_pos hclose, if_pos hclose]
        rfl
      · rw [if_neg hclose, if_neg hclose, ← kind.message_unexpected]
        rfl

theorem takeTurn_offset (kind : Kind) :
    takeTurn src node kind (offset src rest) = lift (Turn.map (offset src)) (turnAt kind rest) := by
  have hgap := afterGap_suffix rest
  rw [takeTurn, scanGap_offset h, ok_bind, turnAt]
  dsimp only
  rw [peek_offset (hgap.trans h)]
  cases hfront : afterGap rest with
  | nil => rfl
  | cons c more =>
    rw [hfront] at hgap
    simp only [List.head?_cons, Option.map_some, leadUnit_eq_iff kind.isWide_close]
    by_cases hclose : c = kind.close
    · have hnarrow : isWide c = false := hclose ▸ kind.isWide_close
      rw [if_pos hclose, if_pos hclose, leadUnit_narrow hnarrow, offset_add_one hnarrow (hgap.trans h)]
      rfl
    · rw [if_neg hclose, if_neg hclose,
        scanPart_offset (fun hs hle => hnode hs (Nat.le_trans hle hgap.length_le)) (hgap.trans h) kind rfl]
      cases hpart : partAt kind (c :: more) with
      | error fault => rfl
      | ok read => exact finishTurn_offset ((partAt_suffix hpart).trans (hgap.trans h)) kind _

end Places

theorem endsPlain_leadUnit (c : Char) : endsPlain (leadUnit c) = endsPlain c := by
  cases hc : isWide c with
  | false => rw [leadUnit_narrow hc]
  | true => rw [endsPlain_of_isWide hc, endsPlain_of_isWide ((isWide_leadUnit c).trans hc)]

structure Faithful (src : List Char) (fuel : Nat) : Prop where
  node : ∀ {inFlow : Bool} {rest : List Char}, rest <:+ src → 2 * rest.length < fuel →
    scanNode src fuel inFlow (offset src rest) = lift (placed src) (flowAt inFlow rest)
  tag : ∀ {inFlow : Bool} {rest : List Char}, '!' :: rest <:+ src → 2 * rest.length + 1 < fuel →
    scanTag src fuel inFlow (offset src ('!' :: rest)) = lift (placed src) (tagAt inFlow rest)
  collection : ∀ {kind : Kind} {out rest : List Char}, rest <:+ src → 2 * rest.length + 1 < fuel →
    scanCollection src fuel kind out (offset src rest) =
      lift (fun read => (.structured (out ++ read.1), offset src read.2)) (collectionAt kind rest)

namespace Faithful

variable {src rest : List Char} {fuel : Nat} {inFlow : Bool} (ih : Faithful src fuel)

include ih

theorem reads {bound : Nat} (h : 2 * bound < fuel) : Reads src bound (scanNode src fuel true) :=
  fun hs hle => ih.node hs (Nat.lt_of_le_of_lt (Nat.mul_le_mul_left 2 hle) h)

theorem succ_node (h : rest <:+ src) (hfuel : 2 * rest.length < fuel + 1) :
    scanNode src (fuel + 1) inFlow (offset src rest) = lift (placed src) (flowAt inFlow rest) := by
  have hgap := afterGap_suffix rest
  -- After the gap the scanner looks at one octet where the reader looks at one character.
  rw [scanNode, scanGap_offset h, ok_bind, flowAt_eq]
  dsimp only
  rw [peek_offset (hgap.trans h)]
  generalize afterGap rest = front at hgap
  cases front with
  | nil => rfl
  | cons c more =>
    have hfront := hgap.trans h
    have hmore := (List.suffix_cons c more).trans hfront
    have hshort : 2 * more.length + 1 < fuel := by
      have := hgap.length_le
      rw [List.length_cons] at this
      omega
    simp only [List.head?_cons, Option.map_some, leadUnit_eq_iff (d := '!') rfl, leadUnit_eq_iff (d := '[') rfl,
      leadUnit_eq_iff (d := '\x7b') rfl, leadUnit_eq_iff (d := '"') rfl]
    by_cases hmark : c = '!'
    · subst hmark
      rw [if_pos rfl, if_pos rfl]
      exact ih.tag hfront hshort
    rw [if_neg hmark, if_neg hmark]
    by_cases hbracket : c = '['
    · subst hbracket
      rw [if_pos rfl, if_pos rfl, leadUnit_narrow rfl, offset_add_one rfl hfront, ih.collection hmore hshort,
        collectionAt]
      cases itemsAt more <;> rfl
    rw [if_neg hbracket, if_neg hbracket]
    by_cases hbrace : c = '\x7b'
    · subst hbrace
      rw [if_pos rfl, if_pos rfl, leadUnit_narrow rfl, offset_add_one rfl hfront, ih.collection hmore hshort,
        collectionAt]
      cases pairsAt more <;> rfl
    rw [if_neg hbrace, if_neg hbrace]
    by_cases hquote : c = '"'
    · subst hquote
      rw [if_pos rfl, if_pos rfl, scanQuoted_offset hfront]
      cases closeQuote more with
      | none => rfl
      | some split => rfl
    · rw [if_neg hquote, if_neg hquote, scanPlain_offset hfront, ok_bind]
      rfl

theorem succ_collection {kind : Kind} {out : List Char} (h : rest <:+ src) (hfuel : 2 * rest.length + 1 < fuel + 1) :
    scanCollection src (fuel + 1) kind out (offset src rest) =
      lift (fun read => (.structured (out ++ read.1), offset src read.2)) (collectionAt kind rest) := by
  -- One turn reads one part; the next turn starts further on, which the bound on the fuel pays for.
  rw [scanCollection, takeTurn_offset (ih.reads (Nat.lt_of_succ_lt_succ hfuel)) h, collectionAt_turn]
  cases hturn : turnAt kind rest with
  | error fault => rfl
  | ok turn =>
    cases turn with
    | done text left => rfl
    | again text left =>
      obtain ⟨hleft, hshort⟩ := turnAt_again hturn
      simp only [lift, Turn.map, ok_bind, resume]
      rw [ih.collection (hleft.trans h) (by omega)]
      cases collectionAt kind left <;> simp [mapRead, lift]

theorem succ_tag (h : '!' :: rest <:+ src) (hfuel : 2 * rest.length + 1 < fuel + 1) :
    scanTag src (fuel + 1) inFlow (offset src ('!' :: rest)) = lift (placed src) (tagAt inFlow rest) := by
  have hrest := (List.suffix_cons '!' rest).trans h
  have hpeek : peek src (offset src rest) = some '!' ↔ rest.head? = some '!' := by
    rw [peek_offset hrest]
    cases rest with
    | nil => simp
    | cons c more => simp [leadUnit_eq_iff (d := '!') rfl]
  rw [scanTag, offset_add_one rfl h, tagAt_eq]
  simp only [hpeek]
  -- A second mark makes a tag that is kept; any other tag has to name a function.
  by_cases hmark : rest.head? = some '!'
  · have hbehind := List.dropWhile_suffix (l := rest) fun c => !isTagEnd c
    have hname : ('!' :: rest.takeWhile fun c => !isTagEnd c) ++ (rest.dropWhile fun c => !isTagEnd c) = '!' :: rest := by
      rw [List.cons_append, List.takeWhile_append_dropWhile]
    have hwide (c : Char) (hc : isWide c = true) : (!isTagEnd c) = true := by rw [isTagEnd_of_isWide hc]; rfl
    have hshort := hbehind.length_le
    rw [if_pos hmark, if_pos hmark, skip_offset hwide hrest, ok_bind, slice_between h hname, ok_bind,
      ih.node (hbehind.trans hrest) (by omega)]
    cases flowAt inFlow (rest.dropWhile fun c => !isTagEnd c) with
    | error fault => rfl
    | ok read =>
      simp only [mapRead, lift, placed, ok_bind, Scanned.text_ofFragment]
      rfl
  · have hbehind := List.dropWhile_suffix (l := rest) Char.isAlphanum
    have hafter : afterName rest <:+ rest := (afterGap_suffix _).trans hbehind
    rw [if_neg hmark, if_neg hmark, skip_offset (fun _ => isAlphanum_of_isWide) hrest, ok_bind,
      slice_between hrest List.takeWhile_append_dropWhile, ok_bind]
    cases Intrinsic.ofTag? (String.ofList (rest.takeWhile Char.isAlphanum)) with
    | none => rfl
    | some f =>
      have hlacks : (match peek src (offset src (afterName rest)) with
          | none => true
          | some b => inFlow && endsPlain b) = lacksArgument inFlow (afterName rest) := by
        rw [peek_offset (hafter.trans hrest)]
        cases afterName rest with
        | nil => rfl
        | cons c more => exact congrArg (inFlow && ·) (endsPlain_leadUnit c)
      have hslice : slice (ε := String) src (offset src (afterName rest)) (units src).length = .ok (afterName rest) := by
        rw [length_units, ← offset_nil src]
        exact slice_between (hafter.trans hrest) (List.append_nil _)
      dsimp only
      rw [scanGap_offset (hbehind.trans hrest), ok_bind]
      dsimp only
      rw [← afterName, hslice, ok_bind]
      simp only [hlacks]
      split
      · split
        · rfl
        · rfl
      · split
        · rw [length_units, ← offset_nil src]
          rfl
        · have hshort := hafter.length_le
          rw [ih.node (hafter.trans hrest) (by omega)]
          cases flowAt inFlow (afterName rest) with
          | error fault => rfl
          | ok read =>
            simp only [mapRead, lift, placed, ok_bind, apply_ofFragment]
            rfl

end Faithful

/-- Twice as many steps as there are characters left are enough, and a few more. -/
theorem faithful (src : List Char) (fuel : Nat) : Faithful src fuel := by
  induction fuel with
  | zero =>
    exact ⟨fun _ h => absurd h (Nat.not_lt_zero _), fun _ h => absurd h (Nat.not_lt_zero _),
      fun _ h => absurd h (Nat.not_lt_zero _)⟩
  | succ fuel ih => exact ⟨ih.succ_node, ih.succ_tag, ih.succ_collection⟩

theorem offset_lt_of_suffix {src rest left : List Char} (h : rest <:+ src)
    (hleft : left <:+ rest ∧ left.length < rest.length) : offset src rest < offset src left := by
  obtain ⟨front, rfl⟩ := h
  obtain ⟨⟨piece, rfl⟩, hshort⟩ := hleft
  have hpiece : 0 < byteLength piece := by
    refine Nat.lt_of_lt_of_le ?_ (length_le_byteLength piece)
    rw [List.length_append] at hshort
    omega
  rw [offset_append, ← List.append_assoc, offset_append, byteLength_append]
  exact Nat.lt_add_of_pos_right hpiece

/-- Whether a turn that starts at a place leads past it, ends its loop or reports a fault. -/
def Advances (start : Nat) : Scan (Turn Nat) → Prop
  | .ok (.again _ next) => start < next
  | .ok (.done ..) | .error (.fault _) => True
  | .error .crash | .error .unfinished => False

theorem advances_lift {src rest : List Char} (h : rest <:+ src) {read : Except FlowFault (Turn (List Char))}
    (hagain : ∀ {text left : List Char}, read = .ok (.again text left) → left <:+ rest ∧ left.length < rest.length) :
    Advances (offset src rest) (lift (Turn.map (offset src)) read) := by
  cases read with
  | error fault => trivial
  | ok turn =>
    cases turn with
    | done text left => trivial
    | again text left => exact offset_lt_of_suffix h (hagain rfl)

section Progress

variable {src rest : List Char} {fuel : Nat} (h : rest <:+ src) (hfuel : 2 * rest.length < fuel)

include h hfuel

theorem advances_takeTurn (kind : Kind) :
    Advances (offset src rest) (takeTurn src (scanNode src fuel true) kind (offset src rest)) := by
  rw [takeTurn_offset ((faithful src fuel).reads hfuel) h]
  exact advances_lift h turnAt_again

/-- A quoted value keeps its quotes, so there is something to cut off at both ends. -/
theorem cutQuotes_of_scanNode {inFlow : Bool} {text : List Char} {next : Nat}
    (hscan : scanNode src fuel inFlow (offset src rest) = .ok (.quoted text, next)) :
    ∃ inner, text = inQuotes inner ∧ cutQuotes text = .ok inner := by
  rw [(faithful src fuel).node h hfuel] at hscan
  cases hread : flowAt inFlow rest with
  | error fault =>
    rw [hread] at hscan
    cases hscan
  | ok read =>
    rw [hread] at hscan
    simp only [lift, placed, Except.ok.injEq, Prod.mk.injEq] at hscan
    cases hfragment : read.1.fragment with
    | quoted inner =>
      rw [hfragment] at hscan
      cases hscan.1
      exact ⟨inner, rfl, cutQuotes_inQuotes inner⟩
    | _ =>
      rw [hfragment] at hscan
      cases hscan.1

end Progress

end CloudTemplate.Octets
