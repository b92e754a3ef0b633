import CloudTemplate.Proofs.Shorthand.FixedLines
/-! Pieces of collections on lines of their own. A piece that closes its quotes adds itself to what it is joined to,
whatever key the line seems to have and whatever comment trails it, and lines without one add nothing. What is joined is
the open collection with the pieces of the lines that it takes: `joinFlow_eq_some`. -/
namespace CloudTemplate.Shorthand

def startsPiece (c : Char) : Bool := !Text.isBlank c && c != '-'

def goesOn : List Char → Bool
  | ' ' :: c :: _ => startsPiece c
  | _ => false

def commasSeparate (q : Quoting) (level : Int) : List Char → Bool
  | [] => true
  | c :: cs =>
    (!(q == .outside && c == ',') || decide (0 < level) && goesOn cs) &&
      commasSeparate (q.next c) (level + if q = .outside then bracketWeight c else 0) cs

theorem goesOn_append {cs : List Char} (h : goesOn cs = true) (ds : List Char) : goesOn (cs ++ ds) = true := by
  match cs with
  | [] => contradiction
  | [c] => simp [goesOn] at h
  | c :: d :: cs =>
    by_cases hc : c = ' '
    · subst hc
      exact h
    · simp [goesOn, hc] at h

theorem commasSeparate_append {q : Quoting} {level : Int} {cs ds : List Char} (h : commasSeparate q level cs = true)
    (h' : commasSeparate (q.after cs) (level + balanceFrom q cs) ds = true) :
    commasSeparate q level (cs ++ ds) = true := by
  induction cs generalizing q level with
  | nil => simpa [balanceFrom, Quoting.after] using h'
  | cons c cs ih =>
    rw [commasSeparate, Bool.and_eq_true] at h
    rw [balanceFrom, ← Int.add_assoc] at h'
    rw [List.cons_append, commasSeparate, ih h.2 h', Bool.and_true]
    refine Bool.or_eq_true_iff.2 ((Bool.or_eq_true_iff.1 h.1).imp_right fun hcomma => ?_)
    rw [Bool.and_eq_true] at hcomma ⊢
    exact hcomma.imp_right (goesOn_append · ds)

theorem commasSeparate_of_not_mem {cs : List Char} (h : ',' ∉ cs) (q : Quoting) (level : Int) :
    commasSeparate q level cs = true := by
  induction cs generalizing q level with
  | nil => rfl
  | cons c cs ih =>
    obtain ⟨hc, hcs⟩ := List.ne_and_not_mem_of_not_mem_cons h
    rw [commasSeparate, ih hcs, Bool.and_true, beq_false_of_ne hc.symm, Bool.and_false]
    rfl

/-- A comma behind a text that closes its quotes. -/
theorem commasSeparate_comma {q : Quoting} {level : Int} {front back : List Char}
    (h : commasSeparate q level (front ++ ',' :: back) = true) (hfront : q.after front = .outside) :
    0 < level + balanceFrom q front ∧ goesOn back = true := by
  induction front generalizing q level with
  | nil =>
    obtain rfl : q = .outside := hfront
    rw [List.nil_append, commasSeparate, Bool.and_eq_true] at h
    simpa [balanceFrom] using h.1
  | cons c front ih =>
    rw [List.cons_append, commasSeparate, Bool.and_eq_true] at h
    rw [balanceFrom, ← Int.add_assoc]
    exact ih h.2 hfront

/-- Nothing between quotes separates. -/
theorem commasSeparate_inside {body : List Char} (h : staysQuoted body = true) (level : Int) :
    commasSeparate .inside level body = true := by
  have hcons {q : Quoting} (hq : q ≠ .outside) (c : Char) (cs : List Char)
      (hcs : commasSeparate (q.next c) level cs = true) : commasSeparate q level (c :: cs) = true := by
    rw [commasSeparate, if_neg hq, Int.add_zero, hcs, Bool.and_true, beq_false_of_ne hq, Bool.false_and]
    rfl
  induction body using escapeInduction with
  | nil => rfl
  | last => contradiction
  | quote cs => contradiction
  | pair c cs ih => exact hcons (by decide) '\\' _ (hcons (by decide) c cs (ih h))
  | plain c cs hquote hbackslash ih =>
    rw [staysQuoted_cons hquote hbackslash] at h
    have hnext : Quoting.next .inside c = .inside := by rw [Quoting.next, if_neg hquote, if_neg hbackslash]
    exact hcons (by decide) c cs (by rw [hnext, ih h])

theorem commasSeparate_inQuotes {body : List Char} (h : staysQuoted body = true) (level : Int) :
    commasSeparate .outside level (inQuotes body) = true := by
  have hinside := commasSeparate_inside h level
  have hbody : commasSeparate .outside level ('"' :: body) = true := by
    rw [commasSeparate, Bool.and_eq_true]
    exact ⟨rfl, by simpa [bracketWeight, Quoting.next] using hinside⟩
  exact commasSeparate_append hbody (commasSeparate_of_not_mem (by decide) _ _)

/-- What trails a text that ends its quotes is split from it. -/
theorem splitCommentFrom_trailing {atStart : Bool} {cs trailing : List Char} (hne : cs ≠ []) (hend : Text.trimEnd cs = cs)
    (hcloses : closesQuotes cs = true) (hcomment : HoldsNoComment .outside atStart cs) (h : IsTrailing trailing) :
    ∃ blanks comment, trailing = blanks ++ comment ∧ (∀ c ∈ blanks, Text.isBlank c = true) ∧
      splitCommentFrom .outside atStart (cs ++ (blanks ++ comment)) = (cs ++ blanks, comment) := by
  obtain ⟨blanks, comment, rfl, hblanks, hstarts⟩ := h
  refine ⟨blanks, comment, rfl, hblanks, ?_⟩
  rw [splitCommentFrom_append_of_noComment hcomment, closesQuotes_iff.1 hcloses, startsBehind_of_trimEnd hne hend]
  have hsplit : splitCommentFrom .outside false (blanks ++ comment) = (blanks, comment) :=
    splitCommentFrom_comment (fun c hc => ⟨ne_of_isBlank (hblanks c hc) rfl, ne_of_isBlank (hblanks c hc) rfl⟩) hstarts
  rw [hsplit]

theorem Layout.ofRest_trailing (opening : List Char) (key : Option (List Char × List Char)) {cs trailing : List Char}
    (hne : cs ≠ []) (hend : Text.trimEnd cs = cs) (hcloses : closesQuotes cs = true)
    (hcomment : HoldsNoComment .outside true cs) (h : IsTrailing trailing) :
    Layout.ofRest opening key (cs ++ trailing) = ⟨opening, key, cs, trailing⟩ := by
  obtain ⟨blanks, comment, rfl, hblanks, hsplit⟩ := splitCommentFrom_trailing hne hend hcloses hcomment h
  exact Layout.ofRest_append opening key hsplit hblanks hend

/-- A key of a text that closes its quotes ends before what trails the text. -/
theorem splitKeyFrom_append_trailing {q : Quoting} {previous : Option Char} {cs trailing key after : List Char}
    (hcs : q.after cs = .outside) (h : IsTrailing trailing)
    (hkey : splitKeyFrom q previous (cs ++ trailing) = some (key, after)) :
    ∃ rest, cs = key ++ ':' :: rest ∧ after = rest ++ trailing ∧ q.after key = .outside ∧
      endsKey (rest ++ trailing) = true := by
  induction cs generalizing q previous key with
  | nil =>
    obtain rfl : q = .outside := hcs
    rw [List.nil_append, h.splitKeyFrom previous] at hkey
    contradiction
  | cons c cs ih =>
    rw [List.cons_append, splitKeyFrom] at hkey
    split at hkey
    · contradiction
    · split at hkey
      · rename_i hc
        obtain ⟨rfl, rfl, hends⟩ := hc
        cases hkey
        exact ⟨cs, rfl, rfl, rfl, hends⟩
      · obtain ⟨⟨key', after'⟩, hsplit, heq⟩ := Option.map_eq_some_iff.1 hkey
        cases heq
        obtain ⟨rest, rfl, hafter, hquotes, hends⟩ := ih hcs hsplit
        exact ⟨rest, rfl, hafter, hquotes, hends⟩

structure IsPiece (cs : List Char) : Prop where
  starts : ∃ c rest, cs = c :: rest ∧ startsPiece c = true
  ends : Text.trimEnd cs = cs
  noColon : cs.getLast? ≠ some ':'
  closes : closesQuotes cs = true
  noComment : HoldsNoComment .outside true cs

theorem IsPiece.isBlank_getLast {cs : List Char} (h : IsPiece cs) : ∀ c ∈ cs.getLast?, Text.isBlank c = false := by
  have hlast := Text.isBlank_getLast_trimEnd cs
  rwa [h.ends] at hlast

/-- What stands behind a key and its gap in a piece is a value. -/
theorem IsPiece.behind_key {cs key rest trailing : List Char} (h : IsPiece cs) (hcs : cs = key ++ ':' :: rest)
    (hquotes : Quoting.after .outside key = .outside) (hends : endsKey (rest ++ trailing) = true) :
    ∃ gap value, rest = gap ++ value ∧ (rest ++ trailing).takeWhile Text.isSpace = gap ∧ value ≠ [] ∧
      Text.trimEnd value = value ∧ closesQuotes value = true ∧ HoldsNoComment .outside true value := by
  obtain ⟨gap, value, hgap, hvalue⟩ : ∃ gap value, rest.takeWhile Text.isSpace = gap ∧ rest.dropWhile Text.isSpace = value :=
    ⟨_, _, rfl, rfl⟩
  have hrest : gap ++ value = rest := by rw [← hgap, ← hvalue, List.takeWhile_append_dropWhile]
  have hspaces : ∀ c ∈ gap, Text.isSpace c = true := fun c hc => List.mem_takeWhile_imp (hgap ▸ hc)
  have hgapNe : gap ≠ [] := by
    have hne : rest ≠ [] := by
      rintro rfl
      exact h.noColon (by rw [hcs, List.getLast?_concat])
    obtain ⟨c, cs', rfl⟩ := List.exists_cons_of_ne_nil hne
    obtain rfl : c = ' ' := by simpa [endsKey] using hends
    simp [← hgap, Text.isSpace]
  -- The gap ends with a space, so a value starts behind it as behind any space.
  obtain ⟨front, c, rfl⟩ := (List.eq_nil_or_concat' gap).resolve_left hgapNe
  obtain rfl : c = ' ' := by simpa [Text.isSpace] using hspaces c (by simp)
  have hvalueNe : value ≠ [] := by
    rintro rfl
    have hlast : cs.getLast? = some ' ' := by
      rw [hcs, ← hrest, List.append_nil, ← List.cons_append, ← List.append_assoc, List.getLast?_concat]
    exact absurd (h.isBlank_getLast ' ' hlast) (by decide)
  have hparts : cs = (key ++ ':' :: front) ++ ' ' :: value := by rw [hcs, ← hrest]; simp
  have hfront : closesQuotes (key ++ ':' :: front) = true := by
    refine closesQuotes_append (closesQuotes_iff.2 hquotes) (closesQuotes_of_not_mem fun hmem => ?_)
    obtain heq | hmem := List.mem_cons.1 hmem
    · contradiction
    · exact absurd (hspaces _ (List.mem_append_left _ hmem)) (by decide)
  have hshort : (rest.takeWhile Text.isSpace).length ≠ rest.length := by
    have hpos := List.length_pos_iff.2 hvalueNe
    have hlength := congrArg List.length hrest
    rw [List.length_append] at hlength
    rw [hgap]
    omega
  refine ⟨front ++ [' '], value, hrest.symm, ?_, hvalueNe, ?_, ?_, (hparts ▸ h.noComment).behind_space hfront⟩
  · rw [List.takeWhile_append, if_neg hshort, hgap]
  · exact Text.trimEnd_of_suffix ⟨key ++ ':' :: (front ++ [' ']), by rw [hparts]; simp⟩ h.ends
  · rw [← closesQuotes_behind_space hfront value, ← hparts, h.closes]

/-- A piece adds itself, wherever it stands and whatever trails it. -/
theorem pieceOf_trailing {cs trailing : List Char} (h : IsPiece cs) (htrailing : IsTrailing trailing) (n : Nat) :
    pieceOf (Text.spaces n ++ (cs ++ trailing)) = cs := by
  obtain ⟨c, tail, hcs, hc⟩ := h.starts
  rw [startsPiece, Bool.and_eq_true, bne_iff_ne, Bool.not_eq_true'] at hc
  have hopening : takeOpening (Text.spaces n ++ (cs ++ trailing)) = Text.spaces n := by
    have hspace : c ≠ ' ' := by
      rintro rfl
      exact absurd hc.1 (by decide)
    rw [(Opening.spaces n).takeOpening_append, hcs, List.cons_append, takeOpening_cons hspace hc.2, List.append_nil]
  have htrim : Text.trim (Text.spaces n ++ cs) = cs := by
    rw [Text.trim, trimStart_spaces, hcs, trimStart_cons hc.1, ← hcs, h.ends]
  simp only [pieceOf, Layout.of, hopening, List.drop_left]
  cases hkey : splitKey (cs ++ trailing) with
  | none =>
    have hne : cs ≠ [] := by rw [hcs]; exact List.cons_ne_nil _ _
    dsimp only
    rw [Layout.ofRest_trailing _ none hne h.ends h.closes h.noComment htrailing]
    simpa [Layout.lead] using htrim
  | some split =>
    obtain ⟨key, after⟩ := split
    have hfrom : splitKeyFrom .outside none (cs ++ trailing) = some (key, after) := by
      rw [hcs, List.cons_append, splitKey] at hkey
      split at hkey
      · contradiction
      · rw [hcs, List.cons_append, hkey]
    obtain ⟨rest, hrest, rfl, hquotes, hends⟩ := splitKeyFrom_append_trailing (closesQuotes_iff.1 h.closes) htrailing hfrom
    obtain ⟨gap, value, rfl, hgap, hne, hend, hcloses, hcomment⟩ := h.behind_key hrest hquotes hends
    have hdrop : (gap ++ value ++ trailing).drop gap.length = value ++ trailing := by
      rw [List.append_assoc, List.drop_left]
    dsimp only
    rw [hgap, hdrop, Layout.ofRest_trailing _ _ hne hend hcloses hcomment htrailing]
    rw [hrest] at htrim ⊢
    simpa [Layout.lead] using htrim

def IsFiller (line : List Char) : Prop := Text.isBlankText line = true ∨ ∃ n cs, line = Text.spaces n ++ '#' :: cs

/-- Blank lines and comments add nothing. -/
theorem pieceOf_filler {line : List Char} (h : IsFiller line) : pieceOf line = [] := by
  obtain hblank | ⟨n, cs, rfl⟩ := h
  · have hlead : (Layout.of line).lead ++ (Layout.of line).value <+: line := ⟨_, Layout.text_of line⟩
    exact Text.trim_of_isBlank fun c hc => List.all_eq_true.1 hblank c (hlead.subset hc)
  · rw [pieceOf, Layout.of_comment]
    refine Text.trim_of_isBlank fun c hc => ?_
    have hspace : c ∈ Text.spaces n := by simpa [Layout.lead] using hc
    rw [List.eq_of_mem_replicate hspace]
    rfl

def joinPieces (joined : List Char) (lines : List SourceLine) : List Char :=
  joined ++ ((lines.map fun line => pieceOf line.text).filter fun piece => !piece.isEmpty).flatMap fun piece => ' ' :: piece

@[simp] theorem joinPieces_nil (joined : List Char) : joinPieces joined [] = joined := List.append_nil joined

theorem joinPieces_cons (joined : List Char) (line : SourceLine) (lines : List SourceLine) :
    joinPieces joined (line :: lines) = joinPieces (joinPieces joined [line]) lines := by
  by_cases hpiece : pieceOf line.text = [] <;> simp [joinPieces, hpiece]

theorem joinPieces_append (front joined : List Char) (lines : List SourceLine) :
    joinPieces (front ++ joined) lines = front ++ joinPieces joined lines := by
  simp only [joinPieces, List.append_assoc]

theorem joinFlow_eq (joined : List Char) (line : SourceLine) (queue : List SourceLine) :
    joinFlow joined (line :: queue) =
      if ((pieceOf line.text).isEmpty || isOpen (joinPieces joined [line])) = true then
        (joinFlow (joinPieces joined [line]) queue).map fun (text, taken, rest) => (text, line :: taken, rest)
      else some (joinPieces joined [line], [line], queue) := by
  rw [joinFlow]
  by_cases hpiece : pieceOf line.text = [] <;> simp [joinPieces, hpiece]

/-- What is joined is the open collection with what the lines taken add to it. -/
theorem joinFlow_eq_some {joined text : List Char} {queue taken rest : List SourceLine}
    (h : joinFlow joined queue = some (text, taken, rest)) : text = joinPieces joined taken := by
  induction queue generalizing joined taken with
  | nil => contradiction
  | cons line queue ih =>
    rw [joinFlow_eq] at h
    split at h
    · obtain ⟨⟨text', taken', rest'⟩, hjoin, heq⟩ := Option.map_eq_some_iff.1 h
      cases heq
      rw [joinPieces_cons]
      exact ih hjoin
    · cases h
      rfl

/-- A line is taken as long as the collection is open with it. -/
theorem joinFlow_cons {joined : List Char} (h : isOpen joined = true) (line : SourceLine) (queue : List SourceLine) :
    joinFlow joined (line :: queue) =
      if isOpen (joinPieces joined [line]) = true then
        (joinFlow (joinPieces joined [line]) queue).map fun (text, taken, rest) => (text, line :: taken, rest)
      else some (joinPieces joined [line], [line], queue) := by
  rw [joinFlow_eq]
  by_cases hpiece : pieceOf line.text = [] <;> simp [joinPieces, hpiece, h]

/-- Joining finds no end if the collection is open with any of the lines that follow. -/
theorem joinFlow_eq_none_iff {joined : List Char} (h : isOpen joined = true) (queue : List SourceLine) :
    joinFlow joined queue = none ↔ ∀ taken, taken <+: queue → isOpen (joinPieces joined taken) = true := by
  induction queue generalizing joined with
  | nil => simp [joinFlow, h]
  | cons line queue ih =>
    rw [joinFlow_cons h]
    by_cases hopen : isOpen (joinPieces joined [line]) = true
    · rw [if_pos hopen, Option.map_eq_none_iff, ih hopen]
      refine ⟨fun hall taken htaken => ?_, fun hall taken htaken => ?_⟩
      · cases taken with
        | nil => simpa using h
        | cons other taken =>
          obtain ⟨rfl, hprefix⟩ := List.cons_prefix_cons.1 htaken
          rw [joinPieces_cons]
          exact hall taken hprefix
      · rw [← joinPieces_cons]
        exact hall (line :: taken) (List.cons_prefix_cons.2 ⟨rfl, htaken⟩)
    · rw [if_neg hopen]
      exact ⟨fun hsome => by contradiction, fun hall => absurd (hall [line] (List.prefix_append [line] queue)) hopen⟩

end CloudTemplate.Shorthand
