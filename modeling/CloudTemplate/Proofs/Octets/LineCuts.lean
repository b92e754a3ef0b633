import CloudTemplate.Proofs.Octets.Walks
import CloudTemplate.Proofs.Shorthand.LineParts
/-! Lines taken apart by cursors. The slices are cut where characters end, also in front of blanks of several octets that
end a value: `cutLine_eq`. -/
namespace CloudTemplate.Octets
open Text Shorthand

variable {ε : Type}

structure LineCut where
  indent : Nat
  lead : List Char
  value : List Char
  trailing : List Char
  keyColumn : Option Nat
  dashColumn : Option Nat
  deriving DecidableEq, Repr

namespace LineCut

@[reducible] def ofLayout (layout : Layout) : LineCut :=
  ⟨layout.indent, layout.lead, layout.value, layout.trailing, layout.keyColumn, layout.dashColumn⟩

def ownerColumn (cut : LineCut) : Nat := (cut.keyColumn.or cut.dashColumn).getD cut.indent

theorem ownerColumn_ofLayout (layout : Layout) : (ofLayout layout).ownerColumn = layout.ownerColumn := by
  rw [ownerColumn, Layout.ownerColumn, ofLayout]
  cases layout.keyColumn <;> cases layout.dashColumn <;> rfl

end LineCut

def isMarker (bytes : List Char) (pos : Nat) : Run ε Bool :=
  if pos < bytes.length then do
    let b ← octetAt bytes pos
    if b = '-' then endsAt bytes (pos + 1) else pure false
  else pure false

def skipMarkers (bytes : List Char) : Nat → Nat → Option Nat → Run ε (Nat × Option Nat)
  | 0, _, _ => .error .unfinished
  | fuel + 1, pos, dash => do
    if ← isMarker bytes pos then
      let next ← skip isSpace bytes (pos + 1)
      skipMarkers bytes fuel next (some pos)
    else pure (pos, dash)

def cutFrom (line : List Char) (indent pos : Nat) (keyColumn dashColumn : Option Nat) : Run ε LineCut := do
  let comment ← commentStart (units line) pos
  let body ← slice line pos (comment.getD (units line).length)
  let value := trimEnd body
  let lead ← slice line 0 pos
  let trailing ← slice line (pos + byteLength value) (units line).length
  pure ⟨indent, lead, value, trailing, keyColumn, dashColumn⟩

def cutLine (line : List Char) : Run ε LineCut := do
  let bytes := units line
  let indent ← skip isSpace bytes 0
  let (pos, dashColumn) ← skipMarkers bytes (bytes.length + 1) indent none
  match ← findKeyColon bytes pos with
  | some colon => do
    let next ← skip isSpace bytes (colon + 1)
    cutFrom line indent next (some pos) dashColumn
  | none => cutFrom line indent pos none dashColumn

theorem takeWhile_isSpace (cs : List Char) : cs.takeWhile isSpace = spaces (cs.takeWhile isSpace).length :=
  List.eq_replicate_iff.2 ⟨rfl, fun _ hc => beq_iff_eq.1 (List.mem_takeWhile_imp (p := isSpace) hc)⟩

theorem takeOpening_spaces (cs : List Char) :
    takeOpening cs = cs.takeWhile isSpace ++ takeOpening (cs.dropWhile isSpace) := by
  have happend := (Opening.spaces (cs.takeWhile isSpace).length).takeOpening_append (cs.dropWhile isSpace)
  rwa [← takeWhile_isSpace, List.takeWhile_append_dropWhile] at happend

theorem drop_takeOpening_spaces (cs : List Char) :
    cs.drop (takeOpening cs).length = (cs.dropWhile isSpace).drop (takeOpening (cs.dropWhile isSpace)).length := by
  have hsplit : cs.takeWhile isSpace ++ cs.dropWhile isSpace = cs := List.takeWhile_append_dropWhile
  calc cs.drop (takeOpening cs).length
      = (cs.takeWhile isSpace ++ cs.dropWhile isSpace).drop
          (cs.takeWhile isSpace ++ takeOpening (cs.dropWhile isSpace)).length := by rw [hsplit, ← takeOpening_spaces]
    _ = (cs.dropWhile isSpace).drop (takeOpening (cs.dropWhile isSpace)).length := by
      rw [List.length_append, ← List.drop_drop, List.drop_left]

theorem takeOpening_dash (cs : List Char) : takeOpening ('-' :: cs) = if endsKey cs then '-' :: takeOpening cs else [] := by
  cases cs with
  | nil => rfl
  | cons c cs =>
    by_cases hc : c = ' '
    · rw [hc]
      rfl
    · rw [endsKey, if_neg (by simpa using hc), takeOpening]
      · simp
      · simp
      · rintro ds ⟨⟩
        exact hc rfl

/-- What opens a text that starts with no space is nothing or a list marker. -/
theorem takeOpening_cases {cs : List Char} (h : cs.head? ≠ some ' ') :
    takeOpening cs = [] ∨ ∃ back, cs = '-' :: back ∧ takeOpening cs = '-' :: takeOpening back := by
  cases cs with
  | nil => exact .inl rfl
  | cons c back =>
    by_cases hdash : c = '-'
    · subst hdash
      rw [takeOpening_dash]
      cases endsKey back with
      | false => exact .inl rfl
      | true => exact .inr ⟨back, rfl, rfl⟩
    · exact .inl (takeOpening_cons (by simpa using h) hdash back)

def lastDash (cs : List Char) : Option Nat :=
  let behind := cs.reverse.dropWhile (· != '-')
  if behind.isEmpty then none else some (behind.length - 1)

theorem lastDash_dash (front : List Char) (n : Nat) : lastDash (front ++ '-' :: spaces n) = some front.length := by
  rw [lastDash, dropWhile_reverse_dash]
  simp

theorem isSpace_of_isWide (c : Char) (h : isWide c = true) : isSpace c = false := by
  rw [isSpace, beq_eq_false_iff_ne]
  rintro rfl
  contradiction

theorem byteLength_narrow {cs : List Char} (h : ∀ c ∈ cs, isWide c = false) : byteLength cs = cs.length := by
  induction cs with
  | nil => rfl
  | cons c cs ih =>
    rw [List.forall_mem_cons] at h
    rw [← length_units, units_cons, units_narrow h.1, List.length_append, length_units, ih h.2, List.length_singleton,
      List.length_cons, Nat.add_comm]

theorem isMarker_offset {src rest : List Char} (h : rest <:+ src) :
    isMarker (ε := ε) (units src) (offset src rest) = .ok ((takeOpening rest).head? == some '-') := by
  rw [isMarker, length_units]
  cases rest with
  | nil => simp [takeOpening]
  | cons b back =>
    rw [if_pos ((offset_lt_iff h).2 (List.cons_ne_nil b back)), octetAt_offset h, ok_bind]
    by_cases hdash : b = '-'
    · subst hdash
      rw [if_pos (leadUnit_narrow rfl), offset_add_one rfl h, endsAt_offset ((List.suffix_cons _ _).trans h),
        takeOpening_dash]
      cases endsKey back <;> rfl
    · rw [if_neg fun hlead => hdash ((leadUnit_eq_iff rfl).1 hlead)]
      by_cases hspace : b = ' '
      · rw [hspace]
        rfl
      · rw [takeOpening_cons hspace hdash]
        rfl

theorem head_dropWhile_isSpace (cs : List Char) : (cs.dropWhile isSpace).head? ≠ some ' ' := by
  intro h
  have hfails := List.head?_dropWhile_not isSpace cs
  rw [h] at hfails
  contradiction

/-- The markers that a loop skips are those that open the text. -/
theorem skipMarkers_offset {fuel : Nat} {front rest : List Char} (hfront : ∀ c ∈ front, isWide c = false)
    (hspace : rest.head? ≠ some ' ') (hfuel : rest.length < fuel) :
    skipMarkers (ε := ε) (units (front ++ rest)) fuel (offset (front ++ rest) rest) (lastDash front) =
      .ok (offset (front ++ rest) (rest.drop (takeOpening rest).length), lastDash (front ++ takeOpening rest)) := by
  induction fuel generalizing front rest with
  | zero => contradiction
  | succ fuel ih =>
    have hrest : rest <:+ front ++ rest := List.suffix_append front rest
    rw [skipMarkers, isMarker_offset hrest, ok_bind]
    obtain hopening | ⟨back, rfl, hopening⟩ := takeOpening_cases hspace
    · simp [hopening]
    · -- Behind the dash and its spaces the loop starts again.
      have hback : back <:+ front ++ '-' :: back := (List.suffix_cons '-' back).trans hrest
      have hsplit : front ++ '-' :: back = (front ++ '-' :: back.takeWhile isSpace) ++ back.dropWhile isSpace := by
        rw [List.append_assoc, List.cons_append, List.takeWhile_append_dropWhile]
      have hplace : some (offset (front ++ '-' :: back) ('-' :: back)) =
          lastDash (front ++ '-' :: back.takeWhile isSpace) := by
        rw [takeWhile_isSpace, lastDash_dash, offset_append, byteLength_narrow hfront]
      have hnarrow : ∀ c ∈ front ++ '-' :: back.takeWhile isSpace, isWide c = false := by
        rw [takeWhile_isSpace]
        intro c hc
        obtain hc | hc | hc := by simpa using hc
        · exact hfront c hc
        · rw [hc]; rfl
        · rw [List.eq_of_mem_replicate hc]; rfl
      have hlength : (back.dropWhile isSpace).length < fuel :=
        Nat.lt_of_le_of_lt (List.dropWhile_suffix isSpace).length_le (Nat.lt_of_succ_lt_succ hfuel)
      have hnext := ih hnarrow (head_dropWhile_isSpace back) hlength
      rw [← hsplit] at hnext
      rw [hopening, List.head?_cons, if_pos (beq_self_eq_true _), offset_add_one rfl hrest,
        skip_offset isSpace_of_isWide hback, ok_bind, hplace, hnext, List.length_cons, List.drop_succ_cons,
        drop_takeOpening_spaces back, takeOpening_spaces back, List.append_assoc, List.cons_append]

/-- The slices around a value are sound: it ends in front of its comment, and the blanks that it loses are characters. -/
theorem cutFrom_offset {line lead rest : List Char} (hline : line = lead ++ rest) (indent : Nat)
    (keyColumn dashColumn : Option Nat) :
    cutFrom (ε := ε) line indent (offset line rest) keyColumn dashColumn =
      .ok ⟨indent, lead, (Layout.ofRest [] none rest).value, (Layout.ofRest [] none rest).trailing, keyColumn,
        dashColumn⟩ := by
  have hrest : rest <:+ line := hline ▸ List.suffix_append lead rest
  obtain ⟨found, hfound, hcomment⟩ := commentStart_offset (ε := ε) hrest
  have hparts := splitCommentFrom_append .outside true rest
  generalize hbody : (splitCommentFrom .outside true rest).1 = body at hparts
  generalize hbehind : (splitCommentFrom .outside true rest).2 = comment at hparts hcomment
  have hvalue : (Layout.ofRest [] none rest).value = trimEnd body := by rw [← hbody]; rfl
  have htrailing : (Layout.ofRest [] none rest).trailing = body.drop (trimEnd body).length ++ comment := by
    rw [← hbody, ← hbehind]; rfl
  have hsplit : trimEnd body ++ (body.drop (trimEnd body).length ++ comment) = rest := by
    rw [← List.append_assoc, append_drop_of_append (trimEnd_append_rest body), hparts]
  -- Three slices follow: up to the comment, before the value, and from the end of the value on.
  have hbodySlice : slice (ε := ε) line (offset line rest) (offset line comment) = .ok body := by
    rw [← hparts] at hrest
    simpa only [hparts] using slice_offset (ε := ε) hrest
  have hleadSlice : slice (ε := ε) line 0 (offset line rest) = .ok lead := by
    have hslice := @slice_offset ε (lead ++ rest) lead rest (List.suffix_refl _)
    rwa [← hline, offset_self] at hslice
  have htrailingSlice : slice (ε := ε) line (offset line rest + byteLength (trimEnd body)) (byteLength line) =
      .ok (body.drop (trimEnd body).length ++ comment) := by
    rw [← hsplit] at hrest
    have hplace := offset_add hrest
    rw [hsplit] at hplace
    have hend : body.drop (trimEnd body).length ++ comment ++ [] <:+ line := by
      rw [List.append_nil]
      exact (List.suffix_append _ _).trans hrest
    have hslice := slice_offset (ε := ε) hend
    rwa [List.append_nil, offset_nil, ← hplace] at hslice
  rw [cutFrom, hfound, ok_bind, hcomment, hbodySlice, ok_bind, hleadSlice, ok_bind, length_units, htrailingSlice, ok_bind,
    hvalue, htrailing]
  rfl

theorem takeWhile_takeOpening (line : List Char) : (takeOpening line).takeWhile isSpace = line.takeWhile isSpace := by
  have hall : ∀ c ∈ line.takeWhile isSpace, isSpace c = true := fun _ hc => List.mem_takeWhile_imp hc
  rw [takeOpening_spaces, List.takeWhile_append_of_pos hall]
  obtain hnil | ⟨back, -, hdash⟩ := takeOpening_cases (head_dropWhile_isSpace line)
  · rw [hnil, List.takeWhile_nil, List.append_nil]
  · rw [hdash, List.takeWhile_cons_of_neg (by decide), List.append_nil]

theorem isWide_of_mem_takeWhile {cs : List Char} : ∀ c ∈ cs.takeWhile isSpace, isWide c = false := by
  intro c hc
  rw [beq_iff_eq.1 (List.mem_takeWhile_imp (p := isSpace) hc)]
  rfl

theorem skip_indent (line : List Char) :
    skip (ε := ε) isSpace (units line) 0 = .ok ((takeOpening line).takeWhile isSpace).length := by
  have hskip := skip_offset (ε := ε) isSpace_of_isWide (List.suffix_refl line)
  have hplace := offset_append (line.takeWhile isSpace) (line.dropWhile isSpace)
  rw [List.takeWhile_append_dropWhile, byteLength_narrow isWide_of_mem_takeWhile] at hplace
  rwa [offset_self, hplace, ← takeWhile_takeOpening] at hskip

theorem skipMarkers_indent (line : List Char) :
    skipMarkers (ε := ε) (units line) ((units line).length + 1) ((takeOpening line).takeWhile isSpace).length none =
      .ok (offset line (line.drop (takeOpening line).length), lastDash (takeOpening line)) := by
  have hsplit : line.takeWhile isSpace ++ line.dropWhile isSpace = line := List.takeWhile_append_dropWhile
  have hplace := offset_append (line.takeWhile isSpace) (line.dropWhile isSpace)
  have hlength : (line.dropWhile isSpace).length < (units line).length + 1 := by
    rw [length_units]
    exact Nat.lt_succ_of_le ((List.dropWhile_suffix isSpace).length_le.trans (length_le_byteLength line))
  have hnone : lastDash (line.takeWhile isSpace) = none := by
    rw [takeWhile_isSpace, lastDash, dropWhile_reverse_spaces]
    rfl
  have hnarrow : ∀ c ∈ line.takeWhile isSpace, isWide c = false := isWide_of_mem_takeWhile
  have hskip := skipMarkers_offset (ε := ε) hnarrow (head_dropWhile_isSpace line) hlength
  rw [hsplit] at hplace hskip
  rwa [hplace, byteLength_narrow hnarrow, hnone, ← drop_takeOpening_spaces, ← takeOpening_spaces,
    ← takeWhile_takeOpening] at hskip

theorem offset_takeOpening (line : List Char) :
    offset line (line.drop (takeOpening line).length) = (takeOpening line).length := by
  obtain ⟨n, gaps, hmarkers⟩ := exists_takeOpening line
  have hnarrow := @Layout.utf8Size_of_mem_opening ⟨takeOpening line, none, [], []⟩ n gaps hmarkers
  have hplace := offset_append (takeOpening line) (line.drop (takeOpening line).length)
  rwa [takeOpening_append_drop, ← (length_eq_byteLength_iff _).2 hnarrow] at hplace

/-- The cursors take a line apart as its layout does. -/
theorem cutLine_eq (line : List Char) : cutLine (ε := ε) line = .ok (.ofLayout (Layout.of line)) := by
  have hsplit := takeOpening_append_drop line
  have hrest : line.drop (takeOpening line).length <:+ line := List.drop_suffix _ _
  rw [cutLine, skip_indent, ok_bind, skipMarkers_indent, ok_bind]
  dsimp only
  rw [findKeyColon_offset hrest, ok_bind, Layout.of]
  cases hkey : splitKey (line.drop (takeOpening line).length) with
  | none =>
    rw [Option.map_none]
    dsimp only
    rw [cutFrom_offset hsplit.symm]
    simp [LineCut.ofLayout, Layout.ofRest, Layout.lead, Layout.indent, Layout.keyColumn, Layout.dashColumn, lastDash]
  | some split =>
    obtain ⟨key, after⟩ := split
    have hparts := splitKey_append hkey
    have hcolon : ':' :: after <:+ line := (show ':' :: after <:+ _ from ⟨key, hparts⟩).trans hrest
    have hafter : after <:+ line := (List.suffix_cons ':' after).trans hcolon
    have hdrop : after.drop (after.takeWhile isSpace).length = after.dropWhile isSpace :=
      calc after.drop (after.takeWhile isSpace).length
          = (after.takeWhile isSpace ++ after.dropWhile isSpace).drop (after.takeWhile isSpace).length := by
            rw [List.takeWhile_append_dropWhile]
        _ = after.dropWhile isSpace := List.drop_left
    have hline : line = (takeOpening line ++ (key ++ ':' :: after.takeWhile isSpace)) ++ after.dropWhile isSpace := by
      rw [List.append_assoc, List.append_assoc, List.cons_append, List.takeWhile_append_dropWhile, hparts, hsplit]
    rw [Option.map_some]
    dsimp only
    rw [offset_add_one rfl hcolon, skip_offset isSpace_of_isWide hafter, ok_bind, cutFrom_offset hline,
      offset_takeOpening, hdrop]
    simp [LineCut.ofLayout, Layout.ofRest, Layout.lead, Layout.indent, Layout.keyColumn, Layout.dashColumn, lastDash]

end CloudTemplate.Octets
