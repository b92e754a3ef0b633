import CloudTemplate.Proofs.Shorthand.Idempotence
import CloudTemplate.Proofs.Text.Positions
/-! The parts of a line. They make up the line, each of its own kind, and stay where they are when another collection takes
the place of a collection or a tag: `isPartition_of`. -/
namespace CloudTemplate.Shorthand

def markers (gaps : List Nat) : List Char := gaps.flatMap fun n => '-' :: Text.spaces n

theorem exists_takeOpening (line : List Char) : ∃ n gaps, takeOpening line = Text.spaces n ++ markers gaps := by
  fun_induction takeOpening line with
  | case1 cs ih =>
    obtain ⟨n, gaps, ih⟩ := ih
    exact ⟨n + 1, gaps, congrArg (' ' :: ·) ih⟩
  | case2 => exact ⟨0, [0], rfl⟩
  | case3 cs ih =>
    obtain ⟨n, gaps, ih⟩ := ih
    refine ⟨0, (n + 1) :: gaps, ?_⟩
    rw [ih]
    rfl
  | case4 => exact ⟨0, [], rfl⟩

theorem takeWhile_isSpace_markers (n : Nat) (gaps : List Nat) :
    (Text.spaces n ++ markers gaps).takeWhile Text.isSpace = Text.spaces n := by
  rw [List.takeWhile_append_of_pos fun c hc => by rw [List.eq_of_mem_replicate hc]; rfl]
  cases gaps with
  | nil => simp [markers]
  | cons gap gaps => simp [markers, Text.isSpace]

/-- The last dash of some text is found behind it from the end. -/
theorem dropWhile_reverse_dash (front : List Char) (n : Nat) :
    (front ++ '-' :: Text.spaces n).reverse.dropWhile (· != '-') = '-' :: front.reverse := by
  rw [List.reverse_append, List.reverse_cons, List.append_assoc,
    List.dropWhile_append_of_pos fun c hc => by rw [List.eq_of_mem_replicate (List.mem_reverse.1 hc)]; rfl]
  rfl

theorem dropWhile_reverse_spaces (n : Nat) : (Text.spaces n).reverse.dropWhile (· != '-') = [] :=
  List.dropWhile_eq_nil_iff.2 fun c hc => by rw [List.eq_of_mem_replicate (List.mem_reverse.1 hc)]; rfl

namespace Layout

/-- Whether a layout splits a line into parts of their kinds. Spaces and list markers open the line; a key with its colon
and some spaces may follow; then come the value and what trails it. Columns count octets. -/
structure IsPartition (layout : Layout) (line : List Char) : Prop where
  text : layout.lead ++ layout.value ++ layout.trailing = line
  opening : ∃ gaps, layout.opening = Text.spaces layout.indent ++ markers gaps ∧ (layout.dashColumn = none ↔ gaps = [])
  key : layout.keyColumn = none ∧ layout.lead = layout.opening ∨
    ∃ key n, layout.keyColumn = some (Text.byteLength layout.opening) ∧
      layout.lead = layout.opening ++ key ++ ':' :: Text.spaces n
  value : ∀ c ∈ layout.value.getLast?, Text.isBlank c = false
  trailing : ∃ blanks comment, layout.trailing = blanks ++ comment ∧ (∀ c ∈ blanks, Text.isBlank c = true) ∧
    (comment = [] ∨ comment.head? = some '#')
  dash : ∀ column ∈ layout.dashColumn, ∃ front n, layout.opening = front ++ '-' :: Text.spaces n ∧
    column = Text.byteLength front
  dash_lt_key : ∀ dash ∈ layout.dashColumn, ∀ key ∈ layout.keyColumn, dash < key
  owner_le : layout.ownerColumn ≤ Text.byteLength layout.lead

section Openings

variable {layout : Layout} {n : Nat} {gaps : List Nat} (h : layout.opening = Text.spaces n ++ markers gaps)

include h

theorem indent_of_markers : layout.indent = n := by
  rw [indent, h, takeWhile_isSpace_markers]
  exact List.length_replicate

theorem dashColumn_of_markers : layout.dashColumn = none ∧ gaps = [] ∨
    ∃ front gap, layout.opening = front ++ '-' :: Text.spaces gap ∧ layout.dashColumn = some front.length ∧ gaps ≠ [] := by
  obtain rfl | ⟨front, gap, rfl⟩ := List.eq_nil_or_concat' gaps
  · refine .inl ⟨?_, rfl⟩
    rw [markers, List.flatMap_nil, List.append_nil] at h
    simp only [dashColumn, h, dropWhile_reverse_spaces]
    rfl
  · have hopening : layout.opening = (Text.spaces n ++ markers front) ++ '-' :: Text.spaces gap := by
      rw [h, markers, List.flatMap_append, List.flatMap_singleton, ← markers, List.append_assoc]
    refine .inr ⟨_, gap, hopening, ?_, by simp⟩
    simp only [dashColumn, hopening, dropWhile_reverse_dash]
    simp [Nat.add_comm]

/-- Spaces and dashes are one octet each. -/
theorem utf8Size_of_mem_opening : ∀ c ∈ layout.opening, c.utf8Size = 1 := by
  intro c hc
  rw [h, List.mem_append, markers, List.mem_flatMap] at hc
  obtain hc | ⟨gap, -, hc⟩ := hc
  · rw [List.eq_of_mem_replicate hc]
    rfl
  · obtain rfl | hc := List.mem_cons.1 hc
    · rfl
    · rw [List.eq_of_mem_replicate hc]
      rfl

end Openings

theorem opening_of (line : List Char) : (of line).opening = takeOpening line := by
  simp only [of]
  split <;> rfl

/-- The gap behind the colon of a key holds spaces. -/
theorem isSpace_of_key {line key gap : List Char} (h : (of line).key = some (key, gap)) :
    ∀ c ∈ gap, Text.isSpace c = true := by
  simp only [of] at h
  split at h
  · cases h
    exact fun c hc => List.mem_takeWhile_imp hc
  · cases h

theorem key_of (line : List Char) :
    (of line).keyColumn = none ∧ (of line).lead = (of line).opening ∨
      ∃ key n, (of line).keyColumn = some (of line).opening.length ∧
        (of line).lead = (of line).opening ++ key ++ ':' :: Text.spaces n := by
  cases hkey : (of line).key with
  | none => exact .inl ⟨by rw [keyColumn, hkey]; rfl, by rw [lead, hkey, List.append_nil]⟩
  | some parts =>
    obtain ⟨key, gap⟩ := parts
    have hgap : gap = Text.spaces gap.length :=
      List.eq_replicate_iff.2 ⟨rfl, fun c hc => beq_iff_eq.1 (isSpace_of_key hkey c hc)⟩
    refine .inr ⟨key, gap.length, by rw [keyColumn, hkey]; rfl, ?_⟩
    rw [lead, hkey, ← hgap, List.append_assoc]

theorem trailing_of (line : List Char) : ∃ blanks comment, (of line).trailing = blanks ++ comment ∧
    (∀ c ∈ blanks, Text.isBlank c = true) ∧ (comment = [] ∨ comment.head? = some '#') := by
  obtain ⟨blanks, comment, htrailing, hsplit, hblanks⟩ := split_of line
  have hcomment := splitCommentFrom_isComment .outside true ((of line).value ++ (of line).trailing)
  rw [hsplit] at hcomment
  exact ⟨blanks, comment, htrailing, hblanks, hcomment.imp_right And.left⟩

/-- Every line is split into its parts. -/
theorem isPartition_of_line (line : List Char) : (of line).IsPartition line := by
  obtain ⟨n, gaps, hopening⟩ := exists_takeOpening line
  rw [← opening_of] at hopening
  have hsize := utf8Size_of_mem_opening hopening
  have hdash := dashColumn_of_markers hopening
  refine ⟨text_of line, ⟨gaps, ?_, ?_⟩, ?_, ?_, trailing_of line, ?_, ?_, ?_⟩
  · rw [indent_of_markers hopening, hopening]
  · obtain ⟨hnone, hgaps⟩ | ⟨_, _, -, hsome, hgaps⟩ := hdash
    · exact iff_of_true hnone hgaps
    · exact iff_of_false (by simp [hsome]) hgaps
  · rw [← (Text.length_eq_byteLength_iff _).2 hsize]
    exact key_of line
  · rw [← trimEnd_value]
    exact Text.isBlank_getLast_trimEnd _
  · intro column hcolumn
    obtain ⟨hnone, -⟩ | ⟨front, gap, hfront, hsome, -⟩ := hdash
    · simp [hnone] at hcolumn
    · refine ⟨front, gap, hfront, ?_⟩
      rw [← (Text.length_eq_byteLength_iff _).2 fun c hc => hsize c (hfront ▸ List.mem_append_left _ hc)]
      exact Option.some.inj (hcolumn.symm.trans hsome)
  · intro dash hcolumn key hkey
    obtain ⟨hnone, -⟩ | ⟨front, gap, hfront, hsome, -⟩ := hdash
    · simp [hnone] at hcolumn
    · obtain rfl : front.length = dash := Option.some.inj (hsome.symm.trans hcolumn)
      obtain ⟨hnone, -⟩ | ⟨_, _, hcolumn, -⟩ := key_of line
      · simp [hnone] at hkey
      · obtain rfl : (of line).opening.length = key := Option.some.inj (hcolumn.symm.trans hkey)
        rw [hfront, List.length_append, List.length_cons]
        omega
  · have hlead : (of line).opening.length ≤ (of line).lead.length := by
      rw [lead, List.length_append]
      exact Nat.le_add_right _ _
    exact (ownerColumn_le _).trans (hlead.trans (Text.length_le_byteLength _))

/-- No comment starts in a text whose number signs stand between quotes. -/
theorem holdsNoComment_of_quoted {q : Quoting} {atStart : Bool} {cs : List Char}
    (h : ∀ front back, cs = front ++ '#' :: back → q.after front ≠ .outside) : HoldsNoComment q atStart cs := by
  induction cs generalizing q atStart with
  | nil => rfl
  | cons c cs ih =>
    have hc : ¬(q = .outside ∧ c = '#' ∧ atStart = true) := fun ⟨hq, hsharp, _⟩ => h [] cs (by rw [hsharp]; rfl) hq
    have hrest : HoldsNoComment (q.next c) (c == ' ') cs :=
      ih fun front back hcs => h (c :: front) back (by rw [hcs]; rfl)
    rw [HoldsNoComment, splitCommentFrom, if_neg hc]
    exact hrest

theorem quoted_of_take {q : Quoting} {cs : List Char}
    (h : ∀ n < cs.length, cs[n]? = some '#' → q.after (cs.take n) ≠ .outside) :
    ∀ front back, cs = front ++ '#' :: back → q.after front ≠ .outside := by
  rintro front back rfl
  have hfront := h front.length (by simp) (by simp)
  rwa [List.take_left] at hfront

/-- The parts of a line are of their kinds and make up the line. Where a line has a collection or a tag for its value,
another collection whose quotes are closed, with number signs between quotes only, can take its place: every other part
stays as it is. -/
theorem isPartition_of (line : List Char) :
    (of line).IsPartition line ∧
      ∀ value, opensFlow (of line).value = true → (value.head? = some '\x7b' ∨ value.head? = some '[') →
        (∀ c ∈ value.getLast?, Text.isBlank c = false) → Quoting.after .outside value = .outside →
        (∀ front back, value = front ++ '#' :: back → Quoting.after .outside front ≠ .outside) →
        of ((of line).lead ++ value ++ (of line).trailing) = { of line with value := value } := by
  refine ⟨isPartition_of_line line, fun value hflow hhead hlast hcloses hsharp => ?_⟩
  have hopens : opensFlow value = true := by
    obtain hhead | hhead := hhead <;> obtain ⟨rest, rfl⟩ := List.head?_eq_some_iff.1 hhead <;> rfl
  exact of_value_append (ne_nil_of_opensFlow hflow) hopens (Text.trimEnd_of_getLast hlast) (closesQuotes_iff.2 hcloses)
    (holdsNoComment_of_quoted hsharp)

/-- A list item with a key and a comment. The number sign in the other value stands between quotes, behind a quote that a
backslash takes with it. -/
theorem isPartition_of_listItem :
    of ((of "  - K: !Ref a # b".toList).lead ++ "[\"\\\"# \", {k: v}]".toList ++
        (of "  - K: !Ref a # b".toList).trailing) =
      { of "  - K: !Ref a # b".toList with value := "[\"\\\"# \", {k: v}]".toList } :=
  (isPartition_of "  - K: !Ref a # b".toList).2 _ (by decide +kernel) (.inr rfl) (by rintro _ ⟨⟩; rfl) (by decide +kernel)
    (quoted_of_take (by decide +kernel))

end Layout

end CloudTemplate.Shorthand
