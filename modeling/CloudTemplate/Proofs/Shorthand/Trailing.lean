import CloudTemplate.Proofs.Shorthand.Leads
import CloudTemplate.Proofs.Shorthand.Standing
import CloudTemplate.Proofs.Shorthand.Words
/-! What trails a value on a line: blanks, and a comment that a space sets apart. Behind another value or
behind a bare key it trails as well. -/
namespace CloudTemplate.Shorthand

theorem ne_of_isBlank {c d : Char} (h : Text.isBlank c = true) (hd : Text.isBlank d = false) : c ≠ d := by
  intro heq
  rw [heq, hd] at h
  contradiction

theorem ne_of_mem_indicator {indicator : List Char} (h : isBlockIndicator indicator = true) {c d : Char}
    (hc : c ∈ indicator) (hfirst : isBlockIndicator [d] = false) (hlater : isBlockIndicator ['|', d] = false) : c ≠ d := by
  intro heq
  cases indicator with
  | nil => contradiction
  | cons e es =>
    rw [isBlockIndicator, Bool.and_eq_true, List.all_eq_true] at h
    cases hc with
    | head => simp [isBlockIndicator, ← heq, h.1] at hfirst
    | tail _ hc =>
      have hmark := h.2 c hc
      simp [isBlockIndicator, ← heq, hmark] at hlater

theorem isBlank_of_mem_indicator {indicator : List Char} (h : isBlockIndicator indicator = true) {c : Char}
    (hc : c ∈ indicator) : Text.isBlank c = false := by
  cases indicator with
  | nil => contradiction
  | cons e es =>
    rw [isBlockIndicator, Bool.and_eq_true, List.all_eq_true] at h
    cases hc with
    | head =>
      obtain hc | hc := Bool.or_eq_true_iff.1 h.1 <;> rw [beq_iff_eq.1 hc] <;> rfl
    | tail _ hc =>
      have hmark := h.2 c hc
      simp only [Bool.or_eq_true, beq_iff_eq] at hmark
      obtain (rfl | rfl) | hdigit := hmark
      · rfl
      · rfl
      · exact isBlank_of_isAlphanum (by simp [Char.isAlphanum, hdigit])

def IsComment (previous : Option Char) (before comment : List Char) : Prop :=
  comment = [] ∨ comment.head? = some '#' ∧ (previous.toList ++ before).getLast? = some ' '

theorem isComment_cons {previous : Option Char} {c : Char} {before comment : List Char} :
    IsComment previous (c :: before) comment ↔ IsComment (some c) before comment := by
  rw [IsComment, IsComment, List.getLast?_append_of_ne_nil _ (List.cons_ne_nil c before)]
  rfl

theorem IsComment.of_none {before comment : List Char} (h : IsComment none before comment) (previous : Option Char) :
    IsComment previous before comment := by
  cases before with
  | nil =>
    obtain h | h := h
    · exact .inl h
    · simp at h
  | cons c before => exact isComment_cons.2 (isComment_cons.1 h)

theorem IsComment.of_some {before comment : List Char} {c : Char} (h : IsComment (some c) before comment)
    (hc : c ≠ ' ') : IsComment none before comment := by
  obtain h | ⟨hhead, hlast⟩ := h
  · exact .inl h
  · cases before with
    | nil => exact absurd (by simpa using hlast) hc
    | cons d before => exact .inr ⟨hhead, by simpa using hlast⟩

theorem IsComment.dropWhile_isSpace {previous : Option Char} {before comment : List Char}
    (h : IsComment previous before comment) : IsComment (some ' ') (before.dropWhile Text.isSpace) comment := by
  induction before generalizing previous with
  | nil =>
    obtain h | ⟨hhead, -⟩ := h
    · exact .inl h
    · exact .inr ⟨hhead, rfl⟩
  | cons c before ih =>
    by_cases hc : Text.isSpace c = true
    · rw [List.dropWhile_cons_of_pos hc]
      exact ih (isComment_cons.1 h)
    · rw [List.dropWhile_cons_of_neg hc]
      exact isComment_cons.2 (isComment_cons.1 h)

theorem splitCommentFrom_isComment (q : Quoting) (atStart : Bool) (cs : List Char) :
    IsComment (if atStart then some ' ' else none) (splitCommentFrom q atStart cs).1
      (splitCommentFrom q atStart cs).2 := by
  induction cs generalizing q atStart with
  | nil => exact .inl rfl
  | cons c cs ih =>
    rw [splitCommentFrom]
    by_cases hsharp : q = .outside ∧ c = '#' ∧ atStart = true
    · rw [if_pos hsharp, hsharp.2.2]
      exact .inr ⟨by rw [hsharp.2.1]; rfl, rfl⟩
    · rw [if_neg hsharp]
      have hrest := ih (q.next c) (c == ' ')
      refine isComment_cons.2 ?_
      by_cases hc : c = ' '
      · subst hc
        exact hrest
      · rw [beq_false_of_ne hc] at hrest ⊢
        exact hrest.of_none (some c)

theorem splitCommentFrom_comment {before comment : List Char} (hbefore : ∀ c ∈ before, c ≠ '#' ∧ c ≠ '"')
    {atStart : Bool} (h : IsComment (if atStart then some ' ' else none) before comment) :
    splitCommentFrom .outside atStart (before ++ comment) = (before, comment) := by
  induction before generalizing atStart with
  | nil =>
    obtain rfl | ⟨hhead, hlast⟩ := h
    · rfl
    · obtain ⟨tail, rfl⟩ := List.head?_eq_some_iff.1 hhead
      cases atStart with
      | true => simp [splitCommentFrom]
      | false => simp at hlast
  | cons c before ih =>
    obtain ⟨hsharp, hquote⟩ := hbefore c List.mem_cons_self
    have hnext : Quoting.next .outside c = .outside := if_neg hquote
    have hrest : IsComment (if (c == ' ') = true then some ' ' else none) before comment := by
      have h := isComment_cons.1 h
      by_cases hc : c = ' '
      · subst hc
        exact h
      · rw [beq_false_of_ne hc]
        exact h.of_some hc
    rw [List.cons_append, splitCommentFrom, if_neg (by simp [hsharp]), hnext,
      ih (fun d hd => hbefore d (List.mem_cons_of_mem c hd)) hrest]

theorem splitKeyFrom_comment {blanks comment : List Char} (hblanks : ∀ c ∈ blanks, Text.isBlank c = true)
    {previous : Option Char} (h : IsComment previous blanks comment) :
    splitKeyFrom .outside previous (blanks ++ comment) = none := by
  induction blanks generalizing previous with
  | nil =>
    obtain rfl | ⟨hhead, hlast⟩ := h
    · rfl
    · obtain ⟨tail, rfl⟩ := List.head?_eq_some_iff.1 hhead
      have hprevious : previous = some ' ' := by
        cases previous with
        | none => simp at hlast
        | some c => simpa using hlast
      simp [splitKeyFrom, hprevious]
  | cons c blanks ih =>
    have hc := hblanks c List.mem_cons_self
    have hsharp : c ≠ '#' := ne_of_isBlank hc rfl
    have hcolon : c ≠ ':' := ne_of_isBlank hc rfl
    have hnext : Quoting.next .outside c = .outside := if_neg (ne_of_isBlank hc rfl)
    rw [List.cons_append, splitKeyFrom, if_neg (by simp [hsharp]), if_neg (by simp [hcolon]), hnext,
      ih (fun d hd => hblanks d (List.mem_cons_of_mem c hd)) (isComment_cons.1 h)]
    rfl

def IsTrailing (cs : List Char) : Prop :=
  ∃ blanks comment, cs = blanks ++ comment ∧ (∀ c ∈ blanks, Text.isBlank c = true) ∧ IsComment none blanks comment

namespace IsTrailing

variable {cs : List Char}

theorem nil : IsTrailing [] := ⟨[], [], rfl, by simp, .inl rfl⟩

theorem isShut (h : IsTrailing cs) : isShut cs = true := by
  obtain ⟨blanks, comment, rfl, hblanks, hcomment⟩ := h
  refine isShut_append (fun c hc => opensFlow_of_isBlank (hblanks c hc)) ?_
  obtain rfl | ⟨hhead, -⟩ := hcomment
  · rfl
  · obtain ⟨tail, rfl⟩ := List.head?_eq_some_iff.1 hhead
    rfl

theorem splitKeyFrom (h : IsTrailing cs) (previous : Option Char) : splitKeyFrom .outside previous cs = none := by
  obtain ⟨blanks, comment, rfl, hblanks, hcomment⟩ := h
  exact splitKeyFrom_comment hblanks (hcomment.of_none previous)

end IsTrailing

namespace Layout

/-- What trails a value. -/
theorem isTrailing {line : List Char} (h : (of line).value ≠ []) : IsTrailing (of line).trailing := by
  have hrest (opening : List Char) (key : Option (List Char × List Char)) (rest : List Char)
      (h : (ofRest opening key rest).value ≠ []) : IsTrailing (ofRest opening key rest).trailing := by
    have hcomment := splitCommentFrom_isComment .outside true rest
    simp only [ofRest] at h ⊢
    generalize splitCommentFrom .outside true rest = split at h hcomment ⊢
    obtain ⟨body, comment⟩ := split
    obtain ⟨blanks, hbody, hblanks⟩ := Text.exists_trimEnd_append body
    have hend := Text.isBlank_getLast_trimEnd body
    generalize Text.trimEnd body = value at h hbody hend ⊢
    subst hbody
    refine ⟨blanks, comment, by rw [List.drop_left], hblanks, ?_⟩
    obtain hnil | ⟨hhead, hlast⟩ := hcomment
    · exact .inl hnil
    · refine .inr ⟨hhead, ?_⟩
      cases blanks with
      | nil =>
        obtain ⟨front, c, rfl⟩ := (List.eq_nil_or_concat value).resolve_left h
        rw [List.append_nil, List.getLast?_append_of_ne_nil _ (by simp), List.concat_eq_append,
          List.getLast?_concat] at hlast
        have hc : c = ' ' := Option.some.inj hlast
        have hblank : Text.isBlank c = false := hend c (by simp)
        rw [hc] at hblank
        exact absurd hblank (by decide)
      | cons b blanks =>
        have hne : b :: blanks ≠ [] := List.cons_ne_nil b blanks
        rw [List.getLast?_append_of_ne_nil _ (by simp), List.getLast?_append_of_ne_nil _ hne] at hlast
        exact hlast
  simp only [of] at h ⊢
  split at h
  · exact hrest _ _ _ h
  · exact hrest _ _ _ h

theorem value_ofRest_isPrefix (opening : List Char) (key : Option (List Char × List Char)) (rest : List Char) :
    (ofRest opening key rest).value <+: rest :=
  (Text.prefix_trimEnd _).trans ⟨_, splitCommentFrom_append .outside true rest⟩

theorem opensFlow_of_append {cs ds : List Char} (h : cs <+: ds) (hopens : opensFlow cs = true) : opensFlow ds = true := by
  obtain ⟨rest, rfl⟩ := h
  cases cs with
  | nil => contradiction
  | cons c cs => exact hopens

section Keys

variable {opening key cs after trailing : List Char}

theorem takeOpening_key (h : Opening opening) (hkey : splitKey cs = some (key, after)) (hstart : takeOpening cs = [])
    (rest : List Char) : takeOpening (opening ++ (key ++ ':' :: rest)) = opening := by
  rw [← splitKey_append hkey] at hstart
  rw [h.takeOpening_append, takeOpening_colon hstart, List.append_nil]

/-- What a key starts with opens no collection, tag or block scalar. -/
theorem head_of_splitKey (h : splitKey cs = some (key, after)) (rest : List Char) :
    ∀ c ∈ (key ++ ':' :: rest).head?, ['!', '[', '\x7b', '#', '|', '>'].contains c = false := by
  have hcs := splitKey_append h
  intro c hc
  cases key with
  | nil =>
    cases hc
    rfl
  | cons d key =>
    cases hc
    rw [← hcs, List.cons_append, splitKey] at h
    split at h
    · contradiction
    · rename_i hd
      exact Bool.not_eq_true _ ▸ hd

/-- Nothing is left for a value where only blanks and a comment are. -/
theorem value_ofRest_trailing (opening : List Char) (key : Option (List Char × List Char)) (h : IsTrailing trailing) :
    (ofRest opening key (trailing.dropWhile Text.isSpace)).value = [] := by
  obtain ⟨blanks, comment, rfl, hblanks, hcomment⟩ := h
  have hstart : comment.dropWhile Text.isSpace = comment := by
    obtain rfl | ⟨hhead, -⟩ := hcomment
    · rfl
    · obtain ⟨tail, rfl⟩ := List.head?_eq_some_iff.1 hhead
      rfl
  have hdrop : (blanks ++ comment).dropWhile Text.isSpace = blanks.dropWhile Text.isSpace ++ comment := by
    rw [List.dropWhile_append, hstart]
    split
    · rename_i hnil
      rw [List.isEmpty_iff.1 hnil, List.nil_append]
    · rfl
  have hbehind : IsComment (some ' ') (blanks.dropWhile Text.isSpace) comment := hcomment.dropWhile_isSpace
  have hrest : ∀ c ∈ blanks.dropWhile Text.isSpace, Text.isBlank c = true := fun c hc =>
    hblanks c ((List.dropWhile_sublist _).subset hc)
  have hsplit := splitCommentFrom_comment (fun c hc => ⟨ne_of_isBlank (hrest c hc) rfl, ne_of_isBlank (hrest c hc) rfl⟩)
    (show IsComment (if true then some ' ' else none) (blanks.dropWhile Text.isSpace) comment from hbehind)
  have hvalue := Text.trimEnd_append_blank [] hrest
  rw [List.nil_append] at hvalue
  simp only [ofRest, hdrop, hsplit, hvalue]
  rfl

/-- The announcement of a block scalar behind a key. -/
theorem of_announced (h : Opening opening) (hkey : splitKey cs = some (key, after)) (hstart : takeOpening cs = [])
    {indicator : List Char} (hindicator : isBlockIndicator indicator = true) (htrailing : IsTrailing trailing) :
    (of (opening ++ (key ++ ':' :: ' ' :: (indicator ++ trailing)))).value = indicator ∧
      (of (opening ++ (key ++ ':' :: ' ' :: (indicator ++ trailing)))).ownerColumn = opening.length := by
  obtain ⟨blanks, comment, rfl, hblanks, hcomment⟩ := htrailing
  have hgap : (' ' :: (indicator ++ (blanks ++ comment))).takeWhile Text.isSpace = [' '] := by
    cases indicator with
    | nil => contradiction
    | cons c cs =>
      have hc : c ≠ ' ' := ne_of_mem_indicator hindicator List.mem_cons_self rfl rfl
      rw [List.takeWhile_cons_of_pos rfl, List.cons_append, List.takeWhile_cons_of_neg (by simp [Text.isSpace, hc])]
  have hbody : splitCommentFrom .outside true (indicator ++ (blanks ++ comment)) = (indicator ++ blanks, comment) := by
    rw [← List.append_assoc]
    refine splitCommentFrom_comment (fun c hc => ?_) ?_
    · cases List.mem_append.1 hc with
      | inl hc => exact ⟨ne_of_mem_indicator hindicator hc rfl rfl, ne_of_mem_indicator hindicator hc rfl rfl⟩
      | inr hc => exact ⟨ne_of_isBlank (hblanks c hc) rfl, ne_of_isBlank (hblanks c hc) rfl⟩
    · obtain rfl | ⟨hhead, hlast⟩ := hcomment
      · exact .inl rfl
      · refine .inr ⟨hhead, ?_⟩
        have hne : blanks ≠ [] := by
          intro hnil
          simp [hnil] at hlast
        rw [← List.append_assoc, List.getLast?_append_of_ne_nil _ hne]
        exact hlast
  have hvalue : Text.trimEnd (indicator ++ blanks) = indicator := by
    rw [Text.trimEnd_append_blank _ hblanks]
    exact Text.trimEnd_eq_self fun c hc => isBlank_of_mem_indicator hindicator hc
  have hends : endsKey (' ' :: (indicator ++ (blanks ++ comment))) = true := rfl
  simp only [of, takeOpening_key h hkey hstart, List.drop_left, splitKey_colon hkey, hends, if_true, hgap]
  simp [ofRest, hbody, hvalue, ownerColumn, keyColumn]

end Keys

end Layout

inductive KeyLine : List Char → Prop
  | mk {opening key cs after trailing : List Char} (h : Opening opening) (hkey : splitKey cs = some (key, after))
      (hstart : takeOpening cs = []) (htrailing : IsTrailing trailing) : KeyLine (opening ++ (key ++ ':' :: trailing))

/-- Without a space behind its colon the key becomes a plain value. -/
theorem KeyLine.value {line : List Char} (h : KeyLine line) :
    (Layout.of line).value = [] ∨ (Layout.of line).key = none ∧
      opensFlow (Layout.of line).value = false ∧ isBlockIndicator (Layout.of line).value = false := by
  obtain @⟨opening, key, cs, after, trailing, h, hkey, hstart, htrailing⟩ := h
  simp only [Layout.of, Layout.takeOpening_key h hkey hstart, List.drop_left, splitKey_colon hkey]
  by_cases hends : endsKey trailing = true
  · have hsplit := List.takeWhile_append_dropWhile (p := Text.isSpace) (l := trailing)
    have hgap : trailing.drop (trailing.takeWhile Text.isSpace).length = trailing.dropWhile Text.isSpace :=
      List.append_cancel_left ((append_drop_of_append hsplit).trans hsplit.symm)
    simp only [hends, if_true, hgap, Layout.value_ofRest_trailing _ _ htrailing, true_or]
  · simp only [hends, htrailing.splitKeyFrom]
    refine .inr ⟨rfl, ?_⟩
    have hvalue := Layout.value_ofRest_isPrefix opening none (key ++ ':' :: trailing)
    have hhead := Layout.head_of_splitKey hkey trailing
    simp only [Bool.false_eq_true, if_false, Option.map_none]
    generalize (Layout.ofRest opening none (key ++ ':' :: trailing)).value = value at hvalue ⊢
    cases value with
    | nil => exact ⟨rfl, rfl⟩
    | cons c value =>
      obtain ⟨rest, hrest⟩ := hvalue
      rw [← hrest] at hhead
      have hc := hhead c rfl
      simp only [List.contains_cons, Bool.or_eq_false_iff, beq_eq_false_iff_ne] at hc
      obtain ⟨hmark, hbracket, hbrace, -, hpipe, hangle, -⟩ := hc
      simp [opensFlow, isBlockIndicator, hmark, hbracket, hbrace, hpipe, hangle]

theorem KeyLine.opensFlow {line : List Char} (h : KeyLine line) : opensFlow (Layout.of line).value = false := by
  obtain hvalue | hvalue := h.value
  · rw [hvalue]
    rfl
  · exact hvalue.2.1

inductive Announces (indicator : List Char) (column : Nat) : List (List Char) → Prop
  | last {line : List Char} (hvalue : (Layout.of line).value = indicator)
      (howner : (Layout.of line).ownerColumn = column) : Announces indicator column [line]
  | behind {line : List Char} {lines : List (List Char)} (h : KeyLine line) (hrest : Announces indicator column lines) :
      Announces indicator column (line :: lines)

theorem Announces.of_key {opening key cs after trailing indicator : List Char} (h : Opening opening)
    (hkey : splitKey cs = some (key, after)) (hstart : takeOpening cs = [])
    (hindicator : isBlockIndicator indicator = true) (htrailing : IsTrailing trailing) :
    Announces indicator opening.length [opening ++ (key ++ ':' :: ' ' :: (indicator ++ trailing))] := by
  obtain ⟨hvalue, howner⟩ := Layout.of_announced h hkey hstart hindicator htrailing
  exact .last hvalue howner

end CloudTemplate.Shorthand
