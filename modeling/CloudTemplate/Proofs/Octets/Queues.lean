import CloudTemplate.Proofs.Octets.LineCuts
import CloudTemplate.Proofs.Shorthand.Pieces
/-! Lines that wait in a queue. The lines that belong to a line are popped and the blank ones at their end pushed back; they
are moved by differences of octets, none of which falls short: `reindentAt_eq`. -/
namespace CloudTemplate.Octets
open Text Shorthand

variable {ε : Type}

def indentAt (line : List Char) : Run ε Nat := minus (byteLength line) (byteLength (trimStart line))

def belongsAt (owner : Nat) (underKey : Bool) (line : List Char) : Run ε Bool := do
  let body := trimStart line
  let indent ← indentAt line
  pure (isBlankText line || owner < indent
    || (underKey && indent == owner && (['-', ' '].isPrefixOf body || trimEnd body == ['-'])))

def popLines (owner : Nat) (underKey : Bool) (stack : List SourceLine) :
    List SourceLine → Run ε (List SourceLine × List SourceLine)
  | [] => pure (stack, [])
  | line :: queue => do
    if ← belongsAt owner underKey line.text then popLines owner underKey (line :: stack) queue
    else pure (stack, line :: queue)

def pushBlanks : List SourceLine → List SourceLine → List SourceLine × List SourceLine
  | [], queue => ([], queue)
  | line :: stack, queue => if isBlankText line.text then pushBlanks stack (line :: queue) else (line :: stack, queue)

def takeBody (owner : Nat) (underKey : Bool) (queue : List SourceLine) : Run ε (List SourceLine × List SourceLine) := do
  let (stack, queue) ← popLines owner underKey [] queue
  let (stack, queue) := pushBlanks stack queue
  pure (stack.reverse, queue)

def moveLine (column least : Nat) (line : SourceLine) : Run ε SourceLine :=
  if isBlankText line.text then pure { line with text := [] }
  else do
    let indent ← indentAt line.text
    let shifted ← minus (indent + column) least
    pure { line with text := spaces shifted ++ trimStart line.text }

def reindentAt (column : Nat) (lines : List SourceLine) : Run ε (List SourceLine) := do
  let indents ← (lines.filter fun line => !isBlankText line.text).mapM fun line => indentAt line.text
  lines.mapM (moveLine column (indents.min?.getD column))

def joinAt (joined : List Char) (consumed : Nat) : List SourceLine → Run ε (Option (List Char × Nat))
  | [] => pure none
  | line :: queue => do
    let cut ← cutLine line.text
    let piece := trim (cut.lead ++ cut.value)
    if piece.isEmpty then joinAt joined (consumed + 1) queue
    else do
      let longer := joined ++ ' ' :: piece
      let whole ← cutLine longer
      let depth ← balance (units whole.value)
      if 0 < depth then joinAt longer (consumed + 1) queue else pure (some (longer, consumed + 1))

def drain (count : Nat) (queue : List SourceLine) : Run ε (List SourceLine × List SourceLine) :=
  if count ≤ queue.length then .ok (queue.take count, queue.drop count) else .error .crash

theorem indentAt_eq (line : List Char) : indentAt (ε := ε) line = .ok (indentation line) := by
  have hsplit : line.takeWhile isBlank ++ trimStart line = line := List.takeWhile_append_dropWhile
  have hlength : byteLength line = indentation line + byteLength (trimStart line) := by
    rw [indentation, ← byteLength_append, hsplit]
  rw [indentAt, minus, if_pos (by omega), hlength, Nat.add_sub_cancel]

theorem belongsAt_eq (owner : Nat) (underKey : Bool) (line : List Char) :
    belongsAt (ε := ε) owner underKey line = .ok (belongs owner underKey line) := by
  rw [belongsAt, indentAt_eq]
  rfl

theorem popLines_eq (owner : Nat) (underKey : Bool) (stack queue : List SourceLine) :
    popLines (ε := ε) owner underKey stack queue =
      .ok ((queue.takeWhile fun line => belongs owner underKey line.text).reverse ++ stack,
        queue.dropWhile fun line => belongs owner underKey line.text) := by
  induction queue generalizing stack with
  | nil => rfl
  | cons line queue ih =>
    rw [popLines, belongsAt_eq, ok_bind]
    cases hbelongs : belongs owner underKey line.text with
    | true => rw [if_pos rfl, ih]; simp [hbelongs]
    | false => rw [if_neg Bool.false_ne_true]; simp [hbelongs]

theorem pushBlanks_eq (stack queue : List SourceLine) :
    pushBlanks stack queue =
      (stack.dropWhile fun line => isBlankText line.text,
        (stack.takeWhile fun line => isBlankText line.text).reverse ++ queue) := by
  induction stack generalizing queue with
  | nil => rfl
  | cons line stack ih =>
    rw [pushBlanks]
    cases hblank : isBlankText line.text with
    | true => rw [if_pos rfl, ih]; simp [hblank]
    | false => rw [if_neg Bool.false_ne_true]; simp [hblank]

theorem takeBody_eq (owner : Nat) (underKey : Bool) (queue : List SourceLine) :
    takeBody (ε := ε) owner underKey queue =
      .ok (bodyOf owner underKey queue, queue.drop (bodyOf owner underKey queue).length) := by
  rw [takeBody, popLines_eq, ok_bind]
  dsimp only
  rw [pushBlanks_eq, List.append_nil]
  generalize htaken : queue.takeWhile (fun line => belongs owner underKey line.text) = taken
  generalize hrest : queue.dropWhile (fun line => belongs owner underKey line.text) = rest
  have hqueue : taken ++ rest = queue := by rw [← htaken, ← hrest, List.takeWhile_append_dropWhile]
  have hbody : bodyOf owner underKey queue = (taken.reverse.dropWhile fun line => isBlankText line.text).reverse := by
    rw [bodyOf, htaken]
    rfl
  have hparts : bodyOf owner underKey queue ++
      ((taken.reverse.takeWhile fun line => isBlankText line.text).reverse ++ rest) = queue := by
    rw [hbody, ← List.append_assoc, ← List.reverse_append, List.takeWhile_append_dropWhile, List.reverse_reverse, hqueue]
  dsimp only
  rw [← hbody]
  generalize bodyOf owner underKey queue = body at hparts
  rw [← hparts, List.drop_left]
  rfl

theorem mapM_ok {α β : Type} {f : α → Run ε β} {g : α → β} {as : List α} (h : ∀ a ∈ as, f a = .ok (g a)) :
    as.mapM f = .ok (as.map g) := by
  induction as with
  | nil => rfl
  | cons a as ih =>
    rw [List.forall_mem_cons] at h
    rw [List.mapM_cons, h.1, ok_bind, ih h.2]
    rfl

/-- No line stands less far in than the least indented one. -/
theorem reindentAt_eq (column : Nat) (lines : List SourceLine) :
    reindentAt (ε := ε) column lines = .ok (reindent column lines) := by
  rw [reindentAt, mapM_ok (g := fun line => indentation line.text) fun line _ => indentAt_eq line.text, ok_bind,
    ← leastIndentation]
  refine mapM_ok fun line hline => ?_
  rw [moveLine]
  cases hblank : isBlankText line.text with
  | true => rfl
  | false =>
    have hleast : (leastIndentation lines).getD column ≤ indentation line.text := least_le_indentation hline hblank
    rw [if_neg Bool.false_ne_true, indentAt_eq, ok_bind, minus, if_pos (by omega), ok_bind]
    rfl

theorem joinAt_eq (joined : List Char) (consumed : Nat) (queue : List SourceLine) :
    joinAt (ε := ε) joined consumed queue =
      .ok ((joinFlow joined queue).map fun result => (result.1, consumed + result.2.1.length)) := by
  induction queue generalizing joined consumed with
  | nil => rfl
  | cons line queue ih =>
    have hpiece : trim ((LineCut.ofLayout (Layout.of line.text)).lead ++ (LineCut.ofLayout (Layout.of line.text)).value) =
        pieceOf line.text := rfl
    have hcount (count : Nat) : consumed + 1 + count = consumed + (count + 1) := by omega
    rw [joinAt, cutLine_eq, ok_bind, hpiece, joinFlow]
    dsimp only
    cases hempty : (pieceOf line.text).isEmpty with
    | true =>
      rw [if_pos rfl, ih, if_pos rfl, if_pos (by simp), Option.map_map]
      simp only [Function.comp_def, List.length_cons, hcount]
    | false =>
      rw [if_neg Bool.false_ne_true, cutLine_eq, ok_bind, balance_units, ok_bind, if_neg Bool.false_ne_true,
        Bool.false_or, isOpen]
      simp only [decide_eq_true_eq]
      by_cases hdepth : 0 < bracketBalance (Layout.of (joined ++ ' ' :: pieceOf line.text)).value
      · rw [if_pos hdepth, if_pos hdepth, ih, Option.map_map]
        simp only [Function.comp_def, List.length_cons, hcount]
      · rw [if_neg hdepth, if_neg hdepth]
        rfl

theorem drain_append (taken rest : List SourceLine) :
    drain (ε := ε) taken.length (taken ++ rest) = .ok (taken, rest) := by
  rw [drain, if_pos (by simp), List.take_left, List.drop_left]

end CloudTemplate.Octets
