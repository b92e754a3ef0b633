import CloudTemplate.Shorthand.Quoting
/-! The parts of one line: indentation and list markers, a key, a value, and what trails it. The parts
make up the line again: `text_of`. -/
namespace CloudTemplate.Shorthand

structure Layout where
  opening : List Char
  /-- The key before its colon, and the spaces after that. -/
  key : Option (List Char × List Char)
  value : List Char
  trailing : List Char
  deriving DecidableEq, Repr

def takeOpening : List Char → List Char
  | ' ' :: cs => ' ' :: takeOpening cs
  | ['-'] => ['-']
  | '-' :: ' ' :: cs => '-' :: ' ' :: takeOpening cs
  | _ => []

def endsKey : List Char → Bool
  | [] => true
  | c :: _ => c == ' '

def splitKeyFrom (q : Quoting) (previous : Option Char) : List Char → Option (List Char × List Char)
  | [] => none
  | c :: cs =>
    if q = .outside ∧ c = '#' ∧ previous = some ' ' then none
    else if q = .outside ∧ c = ':' ∧ endsKey cs then some ([], cs)
    else (splitKeyFrom (q.next c) (some c) cs).map fun split => (c :: split.1, split.2)

def splitKey : List Char → Option (List Char × List Char)
  | [] => none
  | c :: cs =>
    if ['!', '[', '\x7b', '#', '|', '>'].contains c then none
    else splitKeyFrom .outside none (c :: cs)

/-- Splits a text at a number sign outside quotes that follows a space; `atStart` holds where it may
stand without one. -/
def splitCommentFrom (q : Quoting) (atStart : Bool) : List Char → List Char × List Char
  | [] => ([], [])
  | c :: cs =>
    if q = .outside ∧ c = '#' ∧ atStart then ([], c :: cs)
    else
      let (before, comment) := splitCommentFrom (q.next c) (c == ' ') cs
      (c :: before, comment)

namespace Layout

def lead (layout : Layout) : List Char :=
  layout.opening ++ match layout.key with
    | some (key, gap) => key ++ ':' :: gap
    | none => []

def text (layout : Layout) : List Char := layout.lead ++ layout.value ++ layout.trailing

def ofRest (opening : List Char) (key : Option (List Char × List Char)) (rest : List Char) : Layout :=
  let (body, comment) := splitCommentFrom .outside true rest
  let value := Text.trimEnd body
  ⟨opening, key, value, body.drop value.length ++ comment⟩

def of (line : List Char) : Layout :=
  let opening := takeOpening line
  let rest := line.drop opening.length
  match splitKey rest with
  | some (key, after) =>
    let gap := after.takeWhile Text.isSpace
    ofRest opening (some (key, gap)) (after.drop gap.length)
  | none => ofRest opening none rest

def indent (layout : Layout) : Nat := (layout.opening.takeWhile Text.isSpace).length

def keyColumn (layout : Layout) : Option Nat := layout.key.map fun _ => layout.opening.length

def dashColumn (layout : Layout) : Option Nat :=
  let behind := layout.opening.reverse.dropWhile (· != '-')
  if behind.isEmpty then none else some (behind.length - 1)

def ownerColumn (layout : Layout) : Nat :=
  match layout.keyColumn, layout.dashColumn with
  | some column, _ => column
  | none, some column => column
  | none, none => layout.indent

end Layout

theorem takeOpening_append_drop (line : List Char) :
    takeOpening line ++ line.drop (takeOpening line).length = line := by
  fun_induction takeOpening line <;> simp_all

theorem splitKeyFrom_append {q : Quoting} {previous : Option Char} {cs key after : List Char}
    (h : splitKeyFrom q previous cs = some (key, after)) : key ++ ':' :: after = cs := by
  induction cs generalizing q previous key with
  | nil => simp [splitKeyFrom] at h
  | cons c cs ih =>
    rw [splitKeyFrom] at h
    split at h
    · contradiction
    · split at h
      · rename_i hc
        simp only [Option.some.injEq, Prod.mk.injEq] at h
        simp [← h.1, ← h.2, hc.2.1]
      · obtain ⟨split, hsplit, heq⟩ := Option.map_eq_some_iff.1 h
        simp only [Prod.mk.injEq] at heq
        obtain ⟨rfl, rfl⟩ := heq
        rw [List.cons_append, ih hsplit]

theorem splitKey_append {cs key after : List Char} (h : splitKey cs = some (key, after)) :
    key ++ ':' :: after = cs := by
  cases cs with
  | nil => simp [splitKey] at h
  | cons c cs =>
    rw [splitKey] at h
    split at h
    · contradiction
    · exact splitKeyFrom_append h

theorem splitCommentFrom_append (q : Quoting) (atStart : Bool) (cs : List Char) :
    (splitCommentFrom q atStart cs).1 ++ (splitCommentFrom q atStart cs).2 = cs := by
  induction cs generalizing q atStart with
  | nil => rfl
  | cons c cs ih =>
    rw [splitCommentFrom]
    split
    · rfl
    · simp [ih]

theorem append_drop_of_append {p rest cs : List Char} (h : p ++ rest = cs) :
    p ++ cs.drop p.length = cs := by
  subst h
  simp

namespace Layout

theorem text_ofRest (opening : List Char) (key : Option (List Char × List Char)) (rest : List Char) :
    (ofRest opening key rest).text = (ofRest opening key []).lead ++ rest := by
  have hbody := append_drop_of_append (Text.trimEnd_append_rest (splitCommentFrom .outside true rest).1)
  have hsplit := splitCommentFrom_append .outside true rest
  simp only [ofRest, text, lead, List.append_assoc] at *
  rw [← List.append_assoc (Text.trimEnd _), hbody, hsplit]

theorem text_of (line : List Char) : (of line).text = line := by
  have hopening := takeOpening_append_drop line
  simp only [of]
  split
  · rename_i key after h
    have hgap := append_drop_of_append (List.takeWhile_append_dropWhile (p := Text.isSpace) (l := after))
    rw [text_ofRest]
    simp only [lead, ofRest, List.append_assoc, List.cons_append, hgap, splitKey_append h, hopening]
  · rw [text_ofRest]
    simp only [lead, ofRest, List.append_nil, hopening]

end Layout

end CloudTemplate.Shorthand
