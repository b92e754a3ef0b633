import CloudTemplate.Proofs.Shorthand.FixedLines
/-! Lists of lines that a run puts out as they are, put together from fixed lines, block scalars and collections
without shorthand. A block scalar ends before the first line that stands no further in than its owner. -/
namespace CloudTemplate.Shorthand

theorem indentation_append_cons (front : List Char) {c : Char} (hc : Text.isBlank c = false) (cs : List Char) :
    Text.indentation (front ++ c :: cs) = Text.indentation front := by
  have hstop : (c :: cs).takeWhile Text.isBlank = [] := List.takeWhile_cons_of_neg (by simp [hc])
  rw [Text.indentation, Text.indentation, List.takeWhile_append, hstop, List.append_nil]
  split
  · rename_i hlength
    rw [(List.takeWhile_prefix _).eq_of_length hlength]
  · rfl

theorem isBlankText_append_cons (front : List Char) {c : Char} (hc : Text.isBlank c = false) (cs : List Char) :
    Text.isBlankText (front ++ c :: cs) = false := by
  simp [Text.isBlankText, hc]

def firstFilled (lines : List (List Char)) : Option (List Char) := lines.find? fun line => !Text.isBlankText line

def firstIndentation (lines : List (List Char)) : Option Nat :=
  (lines.find? fun line => !Text.isBlankText line).map Text.indentation

theorem firstIndentation_of_isBlankText {line : List Char} (h : Text.isBlankText line = true) (lines : List (List Char)) :
    firstIndentation (line :: lines) = firstIndentation lines := by
  rw [firstIndentation, List.find?_cons_of_neg (by simp [h]), firstIndentation]

theorem firstIndentation_of_not_isBlankText {line : List Char} (h : Text.isBlankText line = false)
    (lines : List (List Char)) : firstIndentation (line :: lines) = some (Text.indentation line) := by
  rw [firstIndentation, List.find?_cons_of_pos (by simp [h])]
  rfl

theorem firstIndentation_append_of_isBlankText {blanks : List (List Char)}
    (h : ∀ line ∈ blanks, Text.isBlankText line = true) (lines : List (List Char)) :
    firstIndentation (blanks ++ lines) = firstIndentation lines := by
  induction blanks with
  | nil => rfl
  | cons line blanks ih =>
    rw [List.forall_mem_cons] at h
    rw [List.cons_append, firstIndentation_of_isBlankText h.1, ih h.2]

structure SameStart (line other : List Char) : Prop where
  filled : Text.isBlankText line = false
  other_filled : Text.isBlankText other = false
  indentation : Text.indentation other = Text.indentation line

namespace SameStart

variable {line other : List Char}

theorem of_append (front : List Char) {c d : Char} (hc : Text.isBlank c = false) (hd : Text.isBlank d = false)
    (cs ds : List Char) : SameStart (front ++ c :: cs) (front ++ d :: ds) where
  filled := isBlankText_append_cons front hc cs
  other_filled := isBlankText_append_cons front hd ds
  indentation := by rw [indentation_append_cons front hc, indentation_append_cons front hd]

theorem refl (h : Text.isBlankText line = false) : SameStart line line := ⟨h, h, rfl⟩

theorem trans {another : List Char} (h : SameStart line other) (h' : SameStart other another) : SameStart line another :=
  ⟨h.filled, h'.other_filled, h'.indentation.trans h.indentation⟩

theorem firstIndentation_eq (h : SameStart line other) (lines others : List (List Char)) :
    firstIndentation (other :: others) = firstIndentation (line :: lines) := by
  rw [firstIndentation_of_not_isBlankText h.filled, firstIndentation_of_not_isBlankText h.other_filled, h.indentation]

end SameStart

theorem exists_dropBlankEnd_append (lines : List SourceLine) :
    ∃ blanks, dropBlankEnd lines ++ blanks = lines ∧ ∀ line ∈ blanks, Text.isBlankText line.text = true := by
  let isBlank (line : SourceLine) : Bool := Text.isBlankText line.text
  refine ⟨(lines.reverse.takeWhile isBlank).reverse, ?_, fun line hline =>
    List.mem_takeWhile_imp (p := isBlank) (List.mem_reverse.1 hline)⟩
  rw [dropBlankEnd, ← List.reverse_append, List.takeWhile_append_dropWhile, List.reverse_reverse]

theorem dropBlankEnd_append {lines blanks : List SourceLine}
    (hblanks : ∀ line ∈ blanks, Text.isBlankText line.text = true) : dropBlankEnd (lines ++ blanks) = dropBlankEnd lines := by
  rw [dropBlankEnd, List.reverse_append, List.dropWhile_append_of_pos (by simpa using hblanks), dropBlankEnd]

theorem dropBlankEnd_of_getLast {lines : List SourceLine}
    (hlast : ∀ line ∈ lines.getLast?, Text.isBlankText line.text = false) : dropBlankEnd lines = lines := by
  rw [dropBlankEnd, List.reverse_eq_iff]
  cases hreverse : lines.reverse with
  | nil => rfl
  | cons line rest =>
    have hline : Text.isBlankText line.text = false := hlast line (by rw [← List.head?_reverse, hreverse]; rfl)
    rw [List.dropWhile_cons_of_neg (by simp [hline])]

theorem bodyOf_append_drop (owner : Nat) (underKey : Bool) (queue : List SourceLine) :
    bodyOf owner underKey queue ++ queue.drop (bodyOf owner underKey queue).length = queue :=
  have hinitial : bodyOf owner underKey queue <+: queue := by
    obtain ⟨blanks, hbody, -⟩ := exists_dropBlankEnd_append (queue.takeWhile fun line => belongs owner underKey line.text)
    exact .trans ⟨blanks, hbody⟩ (List.takeWhile_prefix _)
  List.prefix_iff_eq_append.1 hinitial

/-- No body ends in a blank line. -/
theorem isBlankText_getLast_bodyOf (owner : Nat) (underKey : Bool) (queue : List SourceLine) :
    ∀ line ∈ (bodyOf owner underKey queue).getLast?, Text.isBlankText line.text = false := by
  intro line hline
  rw [bodyOf, dropBlankEnd, List.getLast?_reverse] at hline
  have hhead := List.head?_dropWhile_not (fun line : SourceLine => Text.isBlankText line.text)
    (queue.takeWhile fun line => belongs owner underKey line.text).reverse
  rw [hline] at hhead
  exact hhead

/-- What does not belong to an owner starts no further in. -/
theorem firstIndentation_drop_bodyOf (owner : Nat) (underKey : Bool) (queue : List SourceLine) :
    ∀ n ∈ firstIndentation ((queue.drop (bodyOf owner underKey queue).length).map SourceLine.text), n ≤ owner := by
  obtain ⟨blanks, hbody, hblanks⟩ :=
    exists_dropBlankEnd_append (queue.takeWhile fun line => belongs owner underKey line.text)
  have hqueue := List.takeWhile_append_dropWhile (p := fun line : SourceLine => belongs owner underKey line.text) (l := queue)
  have hhead := List.head?_dropWhile_not (fun line : SourceLine => belongs owner underKey line.text) queue
  generalize queue.dropWhile (fun line => belongs owner underKey line.text) = rest at hqueue hhead
  have hdrop : queue.drop (bodyOf owner underKey queue).length = blanks ++ rest := by
    rw [← bodyOf] at hbody
    have hsplit : bodyOf owner underKey queue ++ (blanks ++ rest) = queue := by
      rw [← List.append_assoc, hbody, hqueue]
    exact List.append_cancel_left ((bodyOf_append_drop owner underKey queue).trans hsplit.symm)
  rw [hdrop, List.map_append, firstIndentation_append_of_isBlankText (by simpa using hblanks)]
  cases rest with
  | nil => simp [firstIndentation]
  | cons line rest =>
    have houter : belongs owner underKey line.text = false := hhead
    simp only [belongs, Bool.or_eq_false_iff, decide_eq_false_iff_not] at houter
    rw [List.map_cons, firstIndentation_of_not_isBlankText houter.1.1]
    intro n hn
    cases hn
    exact Nat.not_lt.1 houter.1.2

theorem isBlankText_of_mem_takeWhile {owner : Nat} {underKey : Bool} {queue : List SourceLine}
    (h : ∀ line ∈ firstFilled (queue.map SourceLine.text), belongs owner underKey line = false) :
    ∀ line ∈ queue.takeWhile (fun line => belongs owner underKey line.text), Text.isBlankText line.text = true := by
  induction queue with
  | nil => simp
  | cons line queue ih =>
    rw [firstFilled, List.map_cons] at h
    by_cases hblank : Text.isBlankText line.text = true
    · rw [List.find?_cons_of_neg (by simp [hblank])] at h
      rw [List.takeWhile_cons_of_pos (by simp [belongs, hblank])]
      exact List.forall_mem_cons.2 ⟨hblank, ih h⟩
    · rw [List.find?_cons_of_pos (by simp [hblank])] at h
      rw [List.takeWhile_cons_of_neg (by simp [h _ rfl])]
      simp

/-- Lines that do not belong to an owner leave its body as it is. -/
theorem bodyOf_append_outside {owner : Nat} {underKey : Bool} (queue : List SourceLine) {rest : List SourceLine}
    (hrest : ∀ line ∈ firstFilled (rest.map SourceLine.text), belongs owner underKey line = false) :
    bodyOf owner underKey (queue ++ rest) = bodyOf owner underKey queue := by
  rw [bodyOf, bodyOf, List.takeWhile_append]
  split
  · rename_i hlength
    rw [dropBlankEnd_append (isBlankText_of_mem_takeWhile hrest), (List.takeWhile_prefix _).eq_of_length hlength]
  · rfl

/-- Lines that belong to an owner are its body, unless blank ones end them. -/
theorem bodyOf_of_belongs {owner : Nat} {underKey : Bool} {body : List SourceLine}
    (hbody : ∀ line ∈ body, belongs owner underKey line.text = true)
    (hlast : ∀ line ∈ body.getLast?, Text.isBlankText line.text = false) : bodyOf owner underKey body = body := by
  rw [bodyOf, List.takeWhile_eq_self_iff.2 hbody, dropBlankEnd_of_getLast hlast]

theorem belongs_of_firstIndentation {owner : Nat} {lines : List (List Char)}
    (h : ∀ n ∈ firstIndentation lines, n ≤ owner) : ∀ line ∈ firstFilled lines, belongs owner false line = false := by
  intro line hline
  have hblank : Text.isBlankText line = false := by simpa using List.find?_some hline
  have hle := h _ (Option.mem_map_of_mem Text.indentation hline)
  simp [belongs, hblank, hle]

/-- A body is found again in front of lines that start no further in than its owner. -/
theorem bodyOf_append_of_firstIndentation {owner : Nat} {body rest : List SourceLine}
    (hbody : ∀ line ∈ body, belongs owner false line.text = true)
    (hlast : ∀ line ∈ body.getLast?, Text.isBlankText line.text = false)
    (hrest : ∀ n ∈ firstIndentation (rest.map SourceLine.text), n ≤ owner) : bodyOf owner false (body ++ rest) = body := by
  rw [bodyOf_append_outside body (belongs_of_firstIndentation hrest), bodyOf_of_belongs hbody hlast]

def IsStable (lines : List (List Char)) : Prop :=
  ∀ queue : List SourceLine, queue.map SourceLine.text = lines → normalizeLines .standard queue = .ok lines

theorem isStable_nil : IsStable [] := by
  intro queue hqueue
  rw [List.map_eq_nil_iff.1 hqueue, normalizeLines_nil]

theorem IsStable.cons {line : List Char} {rest : List (List Char)} (hline : IsFixed line) (hrest : IsStable rest) :
    IsStable (line :: rest) := by
  intro queue hqueue
  obtain ⟨⟨number, text⟩, others, rfl, rfl, hothers⟩ := List.map_eq_cons_iff.1 hqueue
  rw [normalizeLines_of_step (hline number others), hrest others hothers]
  rfl

theorem IsStable.append {lines rest : List (List Char)} (hlines : ∀ line ∈ lines, IsFixed line) (hrest : IsStable rest) :
    IsStable (lines ++ rest) := by
  induction lines with
  | nil => exact hrest
  | cons line lines ih =>
    rw [List.forall_mem_cons] at hlines
    exact .cons hlines.1 (ih hlines.2)

theorem IsStable.scalar {header : List Char} {body rest : List (List Char)} (hrest : IsStable rest)
    (hindicator : isBlockIndicator (Layout.of header).value = true)
    (hbody : ∀ line ∈ body, belongs (Layout.of header).ownerColumn false line = true)
    (hlast : ∀ line ∈ body.getLast?, Text.isBlankText line = false)
    (hstart : ∀ n ∈ firstIndentation rest, n ≤ (Layout.of header).ownerColumn) : IsStable (header :: (body ++ rest)) := by
  intro queue hqueue
  obtain ⟨⟨number, text⟩, others, rfl, rfl, hothers⟩ := List.map_eq_cons_iff.1 hqueue
  obtain ⟨taken, left, rfl, rfl, rfl⟩ := List.map_eq_append_iff.1 hothers
  have hform : Form.of .standard (Layout.of text) = .blockScalar := by rw [Form.of, if_pos hindicator]
  have htaken : bodyOf (Layout.of text).ownerColumn false (taken ++ left) = taken :=
    bodyOf_append_of_firstIndentation (by simpa using hbody) (by simpa using hlast) hstart
  have hstep : step .standard ⟨number, text⟩ (taken ++ left) = .ok ⟨text :: taken.map SourceLine.text, left⟩ := by
    simp only [step, settle, hform, reduceCtorEq, if_false, htaken, List.drop_left]
  rw [normalizeLines_of_step hstep, hrest left rfl]
  rfl

/-- A block scalar behind the lines that announce it. -/
theorem Announces.isStable {indicator : List Char} {column : Nat} {lines body rest : List (List Char)}
    (h : Announces indicator column lines) (hindicator : isBlockIndicator indicator = true)
    (hbody : ∀ line ∈ body, belongs column false line = true)
    (hlast : ∀ line ∈ body.getLast?, Text.isBlankText line = false)
    (hstart : ∀ n ∈ firstIndentation rest, n ≤ column) (hrest : IsStable rest) : IsStable (lines ++ (body ++ rest)) := by
  induction h with
  | last hvalue howner =>
    exact hrest.scalar (by rw [hvalue, hindicator]) (by rwa [howner]) hlast (by rwa [howner])
  | behind hfirst _ ih => exact .cons hfirst.isFixed ih

/-- What joining makes of a line goes by its text. -/
theorem exists_joinFlow_cons (joined text : List Char) :
    ∃ longer goesOn, ∀ (line : SourceLine) (queue : List SourceLine), line.text = text →
      joinFlow joined (line :: queue) =
        if goesOn = true then (joinFlow longer queue).map fun (text, taken, rest) => (text, line :: taken, rest)
        else some (longer, [line], queue) := by
  let longer := if (pieceOf text).isEmpty then joined else joined ++ ' ' :: pieceOf text
  refine ⟨longer, (pieceOf text).isEmpty || isOpen longer, fun line queue hline => ?_⟩
  rw [joinFlow, hline]

/-- Joining goes by the texts of the lines it takes. -/
theorem joinFlow_of_map_text {joined text : List Char} {queue taken rest other : List SourceLine} {more : List (List Char)}
    (h : joinFlow joined queue = some (text, taken, rest))
    (hother : other.map SourceLine.text = taken.map SourceLine.text ++ more) :
    ∃ taken' rest', joinFlow joined other = some (text, taken', rest') ∧
      taken'.map SourceLine.text = taken.map SourceLine.text ∧ rest'.map SourceLine.text = more := by
  induction queue generalizing joined taken other with
  | nil => contradiction
  | cons line queue ih =>
    obtain ⟨longer, goesOn, hcons⟩ := exists_joinFlow_cons joined line.text
    rw [hcons line queue rfl] at h
    split at h
    · rename_i hgoesOn
      obtain ⟨⟨text', taken', rest'⟩, hjoin, heq⟩ := Option.map_eq_some_iff.1 h
      cases heq
      obtain ⟨first, others, rfl, hfirst, hothers⟩ := List.map_eq_cons_iff.1 hother
      obtain ⟨front, left, hrun, hfront, hleft⟩ := ih hjoin hothers
      refine ⟨first :: front, left, ?_, by rw [List.map_cons, hfirst, hfront]; rfl, hleft⟩
      rw [hcons first others hfirst, if_pos hgoesOn, hrun]
      rfl
    · rename_i hgoesOn
      cases h
      obtain ⟨first, others, rfl, hfirst, hothers⟩ := List.map_eq_cons_iff.1 hother
      refine ⟨[first], others, ?_, by rw [List.map_singleton, hfirst]; rfl, hothers⟩
      rw [hcons first others hfirst, if_neg hgoesOn]

theorem joinFlow_eq_none_of_map_text {joined : List Char} {queue other : List SourceLine} (h : joinFlow joined queue = none)
    (hother : other.map SourceLine.text = queue.map SourceLine.text) : joinFlow joined other = none := by
  cases hjoin : joinFlow joined other with
  | none => rfl
  | some result =>
    obtain ⟨text, taken, rest⟩ := result
    obtain ⟨rfl, -⟩ := joinFlow_ok hjoin
    rw [List.map_append] at hother
    obtain ⟨taken', rest', hqueue, -⟩ := joinFlow_of_map_text hjoin hother.symm
    rw [h] at hqueue
    contradiction

/-- A collection over several lines without a mark in any of them. -/
theorem IsStable.collection {line : List Char} {rest : List (List Char)} (hrest : IsStable rest)
    (hform : Form.of .standard (Layout.of line) = .openFlow) {joined : List Char} {queue taken left : List SourceLine}
    (hjoin : joinFlow ((Layout.of line).lead ++ (Layout.of line).value) queue = some (joined, taken, left))
    (hmark : hasMark joined = false) : IsStable (line :: (taken.map SourceLine.text ++ rest)) := by
  intro queue' hqueue
  obtain ⟨⟨number, text⟩, others, rfl, rfl, hothers⟩ := List.map_eq_cons_iff.1 hqueue
  obtain ⟨taken', left', hjoin', htaken, hleft⟩ := joinFlow_of_map_text hjoin hothers
  have hstep : step .standard ⟨number, text⟩ others = .ok ⟨text :: taken'.map SourceLine.text, left'⟩ :=
    (step_joined hform rfl hjoin').trans (if_neg (by simp [hmark]))
  rw [normalizeLines_of_step hstep, hrest left' hleft, htaken]
  rfl

/-- A collection that stays open, without a mark on its line. -/
theorem IsStable.openFlow {line : List Char} {rest : List (List Char)} (hrest : IsStable rest)
    (hform : Form.of .standard (Layout.of line) = .openFlow) (hmark : hasMark (Layout.of line).value = false)
    (hjoin : joinFlow ((Layout.of line).lead ++ (Layout.of line).value) (numberLines 1 rest) = none) :
    IsStable (line :: rest) := by
  intro queue' hqueue
  obtain ⟨⟨number, text⟩, others, rfl, rfl, hothers⟩ := List.map_eq_cons_iff.1 hqueue
  have hjoin' := joinFlow_eq_none_of_map_text hjoin (hothers.trans (map_text_numberLines 1 rest).symm)
  have hstep : step .standard ⟨number, text⟩ others = .ok ⟨[text], others⟩ :=
    (step_unjoined hform rfl hjoin').trans (if_neg (by simp [hmark]))
  rw [normalizeLines_of_step hstep, hrest others hothers]
  rfl

end CloudTemplate.Shorthand
