import CloudTemplate.Proofs.Shorthand.Pieces
import CloudTemplate.Proofs.Shorthand.BlockRewrite
/-! Collections over several lines. A collection that is broken behind commas outside quotes stays open until its last
line, and its pieces join to what was broken. -/
namespace CloudTemplate.Shorthand

/-- Lines that a text becomes behind a lead where line breaks replace spaces behind commas outside quotes. -/
inductive Broken : List Char → List Char → List (List Char) → Prop
  | last (lead cs : List Char) {trailing : List Char} (htrailing : IsTrailing trailing) :
      Broken lead cs [lead ++ (cs ++ trailing)]
  | more (lead : List Char) {front back trailing : List Char} {n : Nat} {fillers lines : List (List Char)}
      (hfront : closesQuotes front = true) (htrailing : IsTrailing trailing) (hfillers : ∀ line ∈ fillers, IsFiller line)
      (hback : Broken (Text.spaces n) back lines) :
      Broken lead (front ++ ',' :: ' ' :: back) ((lead ++ (front ++ ',' :: trailing)) :: (fillers ++ lines))

structure IsJoinable (cs : List Char) : Prop where
  opens : opensFlow cs = true
  inert : IsInert cs
  separates : commasSeparate .outside 0 cs = true
  ends : Text.trimEnd cs = cs
  noColon : cs.getLast? ≠ some ':'

namespace IsJoinable

variable {cs front back : List Char}

/-- What stands before a break opens a collection that it does not close. -/
theorem isOpen_front (h : IsJoinable cs) (hcs : cs = front ++ ',' :: ' ' :: back) (hfront : closesQuotes front = true) :
    opensFlow (front ++ [',']) = true ∧ closesQuotes (front ++ [',']) = true ∧
      HoldsNoComment .outside true (front ++ [',']) ∧ 0 < bracketBalance (front ++ [',']) := by
  have hcomma : cs = (front ++ [',']) ++ ' ' :: back := by rw [hcs]; simp
  obtain ⟨hlevel, -⟩ := commasSeparate_comma (hcs ▸ h.separates) (closesQuotes_iff.1 hfront)
  refine ⟨?_, closesQuotes_append hfront rfl, (hcomma ▸ h.inert.noComment).of_append.1, ?_⟩
  · have hopens := h.opens
    rw [hcs] at hopens
    cases front with
    | nil => contradiction
    | cons c front => exact hopens
  · have hcomma : bracketBalance [','] = 0 := rfl
    rw [bracketBalance_append hfront, hcomma, Int.add_zero]
    simpa [bracketBalance] using hlevel

/-- What stands behind a break is a piece, up to the next break or the end. -/
theorem isPiece {mid rest : List Char} (h : IsJoinable cs) (hcs : cs = front ++ ',' :: ' ' :: (mid ++ rest))
    (hfront : closesQuotes front = true) (hne : mid ≠ []) (hcloses : closesQuotes mid = true)
    (hend : Text.trimEnd mid = mid) (hcolon : mid.getLast? ≠ some ':') : IsPiece mid where
  starts := by
    obtain ⟨-, hgoes⟩ := commasSeparate_comma (hcs ▸ h.separates) (closesQuotes_iff.1 hfront)
    obtain ⟨c, tail, rfl⟩ := List.exists_cons_of_ne_nil hne
    exact ⟨c, tail, rfl, hgoes⟩
  ends := hend
  noColon := hcolon
  closes := hcloses
  noComment := by
    have hparts : cs = (front ++ [',']) ++ ' ' :: (mid ++ rest) := by rw [hcs]; simp
    exact ((hparts ▸ h.inert.noComment).behind_space (closesQuotes_append hfront rfl)).of_append.1

theorem isPiece_between {mid : List Char} (h : IsJoinable cs)
    (hcs : cs = front ++ ',' :: ' ' :: (mid ++ ',' :: ' ' :: back)) (hfront : closesQuotes front = true)
    (hmid : closesQuotes mid = true) : IsPiece (mid ++ [',']) := by
  have hparts : cs = front ++ ',' :: ' ' :: ((mid ++ [',']) ++ ' ' :: back) := by rw [hcs]; simp
  exact h.isPiece hparts hfront (by simp) (closesQuotes_append hmid rfl) (Text.trimEnd_concat rfl)
    (by rw [List.getLast?_concat]; simp)

theorem isPiece_back (h : IsJoinable cs) (hcs : cs = front ++ ',' :: ' ' :: back) (hfront : closesQuotes front = true) :
    IsPiece back := by
  obtain ⟨-, hgoes⟩ := commasSeparate_comma (hcs ▸ h.separates) (closesQuotes_iff.1 hfront)
  have hne : back ≠ [] := by rintro rfl; contradiction
  have hwhole : cs = front ++ ',' :: ' ' :: (back ++ []) := by rw [hcs, List.append_nil]
  have hparts : cs = (front ++ [',']) ++ ' ' :: back := by rw [hcs]; simp
  have hsuffix : back <:+ cs := ⟨front ++ [',', ' '], by rw [hcs]; simp⟩
  have hcomma : closesQuotes (front ++ [',']) = true := closesQuotes_append hfront rfl
  have hcloses : closesQuotes back = true := by
    rw [← closesQuotes_behind_space hcomma back, ← hparts, h.inert.closes]
  refine h.isPiece hwhole hfront hne hcloses (Text.trimEnd_of_suffix hsuffix h.ends) ?_
  obtain ⟨others, hothers⟩ := hsuffix
  have hcolon := h.noColon
  rwa [← hothers, List.getLast?_append_of_ne_nil _ hne] at hcolon

end IsJoinable

/-- A value behind a key, with what trails it. -/
theorem layout_trailing (key : Letters) {cs trailing : List Char} (hopens : opensFlow cs = true) (hend : Text.trimEnd cs = cs)
    (hcloses : closesQuotes cs = true) (hcomment : HoldsNoComment .outside true cs) (h : IsTrailing trailing) :
    Layout.of (key.text ++ ':' :: ' ' :: (cs ++ trailing)) = ⟨[], some (key.text, [' ']), cs, trailing⟩ := by
  have hne := ne_nil_of_opensFlow hopens
  have hkey : splitKey (key.text ++ ':' :: [' ']) = some (key.text, [' ']) := splitKey_letters key rfl
  have hgap : ∀ c ∈ [' '], Text.isSpace c = true := List.forall_mem_singleton.2 rfl
  have hlayout := Layout.of_key_append .nil hkey (takeOpening_letters key _) hgap (List.cons_ne_nil _ _)
    (Layout.opensFlow_of_append ⟨trailing, rfl⟩ hopens)
  rw [Layout.ofRest_trailing _ _ hne hend hcloses hcomment h] at hlayout
  simpa using hlayout

theorem isOpen_key (key : Letters) {cs : List Char} (hopens : opensFlow cs = true) (hend : Text.trimEnd cs = cs)
    (hcloses : closesQuotes cs = true) (hcomment : HoldsNoComment .outside true cs) :
    isOpen (key.text ++ ':' :: ' ' :: cs) = decide (0 < bracketBalance cs) := by
  have hlayout := layout_trailing key hopens hend hcloses hcomment .nil
  rw [List.append_nil] at hlayout
  rw [isOpen, hlayout]

theorem joinFlow_piece {joined piece : List Char} {line : SourceLine} (h : pieceOf line.text = piece) (hne : piece ≠ [])
    (queue : List SourceLine) :
    joinFlow joined (line :: queue) =
      if isOpen (joined ++ ' ' :: piece) = true then
        (joinFlow (joined ++ ' ' :: piece) queue).map fun (text, taken, rest) => (text, line :: taken, rest)
      else some (joined ++ ' ' :: piece, [line], queue) := by
  have hjoined : joinPieces joined [line] = joined ++ ' ' :: piece := by simp [joinPieces, h, hne]
  rw [joinFlow_eq, hjoined, h]
  simp [hne]

theorem joinFlow_fillers (joined : List Char) {fillers : List SourceLine} (h : ∀ line ∈ fillers, IsFiller line.text)
    (queue : List SourceLine) :
    joinFlow joined (fillers ++ queue) =
      (joinFlow joined queue).map fun (text, taken, rest) => (text, fillers ++ taken, rest) := by
  induction fillers with
  | nil => rw [List.nil_append]; cases joinFlow joined queue <;> rfl
  | cons line fillers ih =>
    rw [List.forall_mem_cons] at h
    have hskip : joinFlow joined (line :: (fillers ++ queue)) =
        (joinFlow joined (fillers ++ queue)).map fun (text, taken, rest) => (text, line :: taken, rest) := by
      simp only [joinFlow, pieceOf_filler h.1, List.isEmpty_nil, if_true, Bool.true_or]
    rw [List.cons_append, hskip, ih h.2, Option.map_map]
    rfl

/-- The lines behind a break join to what was broken, and no line behind them is taken. -/
theorem joinFlow_broken {cs lead text : List Char} {lines : List (List Char)} (hcs : IsJoinable cs) (key : Letters)
    (hbroken : Broken lead text lines) {n : Nat} (hlead : lead = Text.spaces n) {front : List Char}
    (hfront : closesQuotes front = true) (htext : cs = front ++ ',' :: ' ' :: text) {later : List SourceLine}
    (hlater : later.map SourceLine.text = lines) (queue : List SourceLine) :
    joinFlow (key.text ++ ':' :: ' ' :: (front ++ [','])) (later ++ queue) =
      some (key.text ++ ':' :: ' ' :: cs, later, queue) := by
  -- On the breaks. The front that is joined so far leaves a bracket open until the last piece.
  induction hbroken generalizing n front later with
  | last lead text htrailing =>
    obtain ⟨line, rfl, hline⟩ := List.map_eq_singleton_iff.1 hlater
    subst hlead
    have hpiece := hcs.isPiece_back htext hfront
    have hjoined : key.text ++ ':' :: ' ' :: (front ++ [',']) ++ ' ' :: text = key.text ++ ':' :: ' ' :: cs := by
      rw [htext]
      simp
    have hline : pieceOf line.text = text := by rw [hline, pieceOf_trailing hpiece htrailing]
    have hclosed : isOpen (key.text ++ ':' :: ' ' :: cs) = false := by
      rw [isOpen_key key hcs.opens hcs.ends hcs.inert.closes hcs.inert.noComment, hcs.inert.balance]
      rfl
    obtain ⟨c, tail, rfl, -⟩ := hpiece.starts
    rw [List.singleton_append, joinFlow_piece hline (List.cons_ne_nil _ _), hjoined, if_neg (by simp [hclosed])]
  | @more lead front' back trailing m fillers lines hfront' htrailing hfillers _ ih =>
    obtain ⟨line, others, rfl, hline, hothers⟩ := List.map_eq_cons_iff.1 hlater
    obtain ⟨between, behind, rfl, hbetween, hbehind⟩ := List.map_eq_append_iff.1 hothers
    subst hlead
    have hnext : cs = (front ++ ',' :: ' ' :: front') ++ ',' :: ' ' :: back := by rw [htext]; simp
    have hcloses : closesQuotes (front ++ ',' :: ' ' :: front') = true :=
      closesQuotes_append hfront (show closesQuotes ([',', ' '] ++ front') = true from closesQuotes_append rfl hfront')
    have hpiece := hcs.isPiece_between htext hfront hfront'
    obtain ⟨hopens, hquotes, hcomment, hbalance⟩ := hcs.isOpen_front hnext hcloses
    have hjoined : key.text ++ ':' :: ' ' :: (front ++ [',']) ++ ' ' :: (front' ++ [',']) =
        key.text ++ ':' :: ' ' :: (front ++ ',' :: ' ' :: front' ++ [',']) := by simp
    have hopen : isOpen (key.text ++ ':' :: ' ' :: (front ++ ',' :: ' ' :: front' ++ [','])) = true := by
      rw [isOpen_key key hopens (Text.trimEnd_concat rfl) hquotes hcomment]
      exact decide_eq_true hbalance
    have hline : pieceOf line.text = front' ++ [','] := by
      have htrailed := pieceOf_trailing hpiece htrailing n
      rw [hline]
      simpa using htrailed
    have hbetween' : ∀ line ∈ between, IsFiller line.text := fun line hmem =>
      hfillers line.text (hbetween ▸ List.mem_map_of_mem hmem)
    rw [List.cons_append, joinFlow_piece hline (by simp), hjoined, if_pos hopen, List.append_assoc between,
      joinFlow_fillers _ hbetween', ih rfl hcloses hnext hbehind]
    rfl

/-- The first step over a broken collection joins its lines, and goes on as with the whole collection on one line. -/
theorem step_broken {cs : List Char} {lines : List (List Char)} (hcs : IsJoinable cs) (hmark : '!' ∈ cs) (key : Letters)
    (hbroken : Broken (key.text ++ [':', ' ']) cs lines) (hbreak : 1 < lines.length) {first : SourceLine}
    {later : List SourceLine} (hlines : (first :: later).map SourceLine.text = lines) (queue : List SourceLine) :
    joinFlow ((Layout.of first.text).lead ++ (Layout.of first.text).value) (later ++ queue) =
        some (key.text ++ ':' :: ' ' :: cs, later, queue) ∧
      step .standard first (later ++ queue) =
        settle .standard first.number (key.text ++ ':' :: ' ' :: cs) queue := by
  generalize hlead : key.text ++ [':', ' '] = lead at hbroken
  cases hbroken with
  | last => contradiction
  | @more _ front back trailing n fillers lines hfront htrailing hfillers hback =>
    subst hlead
    obtain ⟨hfirst, hlater⟩ := List.cons.inj hlines
    obtain ⟨hopens, hquotes, hcomment, hbalance⟩ := hcs.isOpen_front rfl hfront
    have hlayout : Layout.of first.text = ⟨[], some (key.text, [' ']), front ++ [','], trailing⟩ := by
      have hlayout := layout_trailing key hopens (Text.trimEnd_concat rfl) hquotes hcomment htrailing
      rw [hfirst]
      simpa using hlayout
    have hjoined : (Layout.of first.text).lead ++ (Layout.of first.text).value =
        key.text ++ ':' :: ' ' :: (front ++ [',']) := by
      rw [hlayout]
      simp [Layout.lead]
    obtain ⟨between, later, rfl, hbetween, hlater⟩ := List.map_eq_append_iff.1 hlater
    have hbetween' : ∀ line ∈ between, IsFiller line.text := fun line hmem =>
      hfillers line.text (hbetween ▸ List.mem_map_of_mem hmem)
    have hjoin : joinFlow ((Layout.of first.text).lead ++ (Layout.of first.text).value) (between ++ later ++ queue) =
        some (key.text ++ ':' :: ' ' :: (front ++ ',' :: ' ' :: back), between ++ later, queue) := by
      rw [hjoined, List.append_assoc, joinFlow_fillers _ hbetween',
        joinFlow_broken hcs key hback rfl hfront rfl hlater queue]
      rfl
    refine ⟨hjoin, ?_⟩
    have hform : Form.of .standard (Layout.of first.text) = .openFlow := by
      rw [hlayout]
      exact Form.of_eq_openFlow hopens hbalance
    have hjoinedMark : hasMark (key.text ++ ':' :: ' ' :: (front ++ ',' :: ' ' :: back)) = true := by
      simp only [hasMark, List.contains_eq_mem, decide_eq_true_eq]
      exact List.mem_append_right _ (List.mem_cons_of_mem _ (List.mem_cons_of_mem _ hmark))
    exact (step_joined hform rfl hjoin).trans (if_pos hjoinedMark)

end CloudTemplate.Shorthand
