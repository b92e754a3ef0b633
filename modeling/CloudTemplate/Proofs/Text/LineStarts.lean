import CloudTemplate.Proofs.Text.Positions
import Mathlib.Algebra.GroupWithZero.Nat
import Mathlib.Data.Set.Function
import Mathlib.Order.Interval.Set.Defs
/-! Where lines start. The position of an offset and the start of its line give the offset back, so offsets up to the end
of a text and the positions on its lines correspond one to one, in the same order: `position_bijOn`. -/
namespace CloudTemplate.Text

def octetLines (bytes : List UInt8) : List (List UInt8) := bytes.splitOn newline

def endedOctets (lines : List (List UInt8)) : List UInt8 := lines.flatMap (· ++ [newline])

def lineStart (bytes : List UInt8) (line : Nat) : Nat :=
  (((octetLines bytes).take (line - 1)).map fun octets => octets.length + 1).sum

def lineLength (bytes : List UInt8) (line : Nat) : Nat := ((octetLines bytes)[line - 1]?.getD []).length

instance : LT Position := ⟨fun p q => p.line < q.line ∨ p.line = q.line ∧ p.column < q.column⟩

theorem Position.lt_def {p q : Position} : p < q ↔ p.line < q.line ∨ p.line = q.line ∧ p.column < q.column := Iff.rfl

/-- Whether a position stands in front of an octet of a line, or at the end of the line. -/
structure Position.IsIn (bytes : List UInt8) (position : Position) : Prop where
  line_pos : 1 ≤ position.line
  line_le : position.line ≤ (octetLines bytes).length
  column_pos : 1 ≤ position.column
  column_le : position.column ≤ lineLength bytes position.line + 1

theorem length_endedOctets (lines : List (List UInt8)) :
    (endedOctets lines).length = (lines.map fun octets => octets.length + 1).sum := by
  induction lines with
  | nil => rfl
  | cons line lines ih =>
    rw [endedOctets, List.flatMap_cons, ← endedOctets, List.length_append, ih, List.map_cons, List.sum_cons,
      List.length_append]
    rfl

theorem octetLines_cons (b : UInt8) (bytes : List UInt8) :
    octetLines (b :: bytes) =
      if b = newline then [] :: octetLines bytes else (octetLines bytes).modifyHead (b :: ·) := by
  simp only [octetLines, List.splitOn_cons_eq_if_modifyHead, beq_iff_eq]

theorem newline_not_mem_of_mem_octetLines {bytes line : List UInt8} (h : line ∈ octetLines bytes) : newline ∉ line := by
  induction bytes generalizing line with
  | nil =>
    obtain rfl : line = [] := by simpa [octetLines] using h
    exact List.not_mem_nil
  | cons b bytes ih =>
    rw [octetLines_cons] at h
    split at h
    · obtain rfl | h := List.mem_cons.1 h
      · exact List.not_mem_nil
      · exact ih h
    · rename_i hb
      obtain ⟨first, rest, hlines⟩ := List.exists_cons_of_ne_nil (List.splitOn_ne_nil newline bytes)
      rw [octetLines, hlines, List.modifyHead_cons, List.mem_cons] at h
      rw [octetLines, hlines] at ih
      obtain rfl | h := h
      · rw [List.mem_cons, not_or]
        exact ⟨fun heq => hb heq.symm, ih List.mem_cons_self⟩
      · exact ih (List.mem_cons_of_mem first h)

theorem count_newline_endedOctets {lines : List (List UInt8)} (h : ∀ line ∈ lines, newline ∉ line) :
    (endedOctets lines).count newline = lines.length := count_flatMap_concat h

theorem column_endedOctets (lines : List (List UInt8)) : column (endedOctets lines) = 0 := by
  obtain rfl | ⟨lines, line, rfl⟩ := List.eq_nil_or_concat lines
  · rfl
  · rw [endedOctets, List.concat_eq_append, List.flatMap_append, List.flatMap_singleton, ← List.append_assoc]
    exact column_newline _

/-- What stands in front of a line. -/
theorem exists_append_of_octetLines {bytes line : List UInt8} {above below : List (List UInt8)}
    (h : octetLines bytes = above ++ line :: below) : ∃ after, bytes = endedOctets above ++ line ++ after := by
  have hlines : [newline].intercalate (octetLines bytes) = bytes := List.intercalate_splitOn newline
  rw [← hlines, h]
  clear h
  induction above with
  | nil =>
    cases below with
    | nil => exact ⟨[], by simp [endedOctets]⟩
    | cons next below => exact ⟨_, by rw [List.nil_append, List.intercalate_cons_cons, List.append_assoc]; rfl⟩
  | cons first above ih =>
    obtain ⟨after, hafter⟩ := ih
    refine ⟨after, ?_⟩
    rw [List.cons_append, List.intercalate_cons_of_ne_nil (by simp), hafter]
    simp [endedOctets]

structure OnLine (bytes : List UInt8) (offset : Nat) (above : List (List UInt8)) (left right : List UInt8)
    (below : List (List UInt8)) : Prop where
  lines : octetLines bytes = above ++ (left ++ right) :: below
  before : bytes.take offset = endedOctets above ++ left

/-- Every offset up to the end stands on a line. -/
theorem exists_onLine (bytes : List UInt8) {offset : Nat} (h : offset ≤ bytes.length) :
    ∃ above left right below, OnLine bytes offset above left right below := by
  induction bytes generalizing offset with
  | nil =>
    obtain rfl : offset = 0 := by simpa using h
    exact ⟨[], [], [], [], rfl, rfl⟩
  | cons b bytes ih =>
    cases offset with
    | zero =>
      obtain ⟨first, rest, hlines⟩ := List.exists_cons_of_ne_nil (List.splitOn_ne_nil newline (b :: bytes))
      exact ⟨[], [], first, rest, hlines, rfl⟩
    | succ offset =>
      obtain ⟨above, left, right, below, hlines, hbefore⟩ := ih (Nat.le_of_succ_le_succ h)
      by_cases hb : b = newline
      · refine ⟨[] :: above, left, right, below, ?_, ?_⟩
        · rw [octetLines_cons, if_pos hb, hlines, List.cons_append]
        · rw [List.take_succ_cons, hbefore, hb]
          rfl
      · cases above with
        | nil =>
          refine ⟨[], b :: left, right, below, ?_, ?_⟩
          · rw [octetLines_cons, if_neg hb, hlines]
            rfl
          · rw [List.take_succ_cons, hbefore]
            rfl
        | cons first above =>
          refine ⟨(b :: first) :: above, left, right, below, ?_, ?_⟩
          · rw [octetLines_cons, if_neg hb, hlines]
            rfl
          · rw [List.take_succ_cons, hbefore]
            rfl

namespace OnLine

variable {bytes : List UInt8} {offset : Nat} {above below : List (List UInt8)} {left right : List UInt8}

theorem positionIn_eq (h : OnLine bytes offset above left right below) :
    positionIn bytes offset = ⟨above.length + 1, left.length + 1⟩ := by
  have hfree : ∀ line ∈ above, newline ∉ line := fun line hline =>
    @newline_not_mem_of_mem_octetLines bytes line (h.lines ▸ List.mem_append_left _ hline)
  have hleft : newline ∉ left := fun hmem =>
    @newline_not_mem_of_mem_octetLines bytes _ (h.lines ▸ List.mem_append_right _ List.mem_cons_self)
      (List.mem_append_left _ hmem)
  rw [Text.positionIn_eq, h.before, List.count_append, count_newline_endedOctets hfree, List.count_eq_zero.2 hleft,
    column_append hleft, column_endedOctets, Nat.add_zero, Nat.zero_add]

theorem lineStart_eq (h : OnLine bytes offset above left right below) :
    lineStart bytes (above.length + 1) = (endedOctets above).length := by
  rw [lineStart, h.lines, Nat.add_sub_cancel, List.take_left, length_endedOctets]

theorem lineLength_eq (h : OnLine bytes offset above left right below) :
    lineLength bytes (above.length + 1) = left.length + right.length := by
  rw [lineLength, h.lines, Nat.add_sub_cancel, List.getElem?_append_right (Nat.le_refl _), Nat.sub_self,
    List.getElem?_cons_zero, Option.getD_some, List.length_append]

/-- The start of the line and the column give the offset back. -/
theorem lineStart_add_length (h : OnLine bytes offset above left right below) (hle : offset ≤ bytes.length) :
    lineStart bytes (above.length + 1) + left.length = offset := by
  have hlength := congrArg List.length h.before
  rw [List.length_take_of_le hle, List.length_append] at hlength
  rw [h.lineStart_eq, hlength]

theorem isIn (h : OnLine bytes offset above left right below) : (positionIn bytes offset).IsIn bytes := by
  rw [h.positionIn_eq]
  refine ⟨Nat.le_add_left 1 _, ?_, Nat.le_add_left 1 _, ?_⟩
  · rw [h.lines, List.length_append, List.length_cons]
    dsimp only
    omega
  · dsimp only
    rw [h.lineLength_eq]
    omega

end OnLine

/-- Every position on the lines is that of an offset. -/
theorem Position.IsIn.exists_onLine {bytes : List UInt8} {position : Position} (h : position.IsIn bytes) :
    ∃ offset above left right below, offset ≤ bytes.length ∧ OnLine bytes offset above left right below ∧
      position = ⟨above.length + 1, left.length + 1⟩ := by
  obtain ⟨line, column⟩ := position
  obtain ⟨hline, hlast, hcolumn, hend⟩ := h
  dsimp only at hline hlast hcolumn hend
  have hsplit := List.take_append_drop (line - 1) (octetLines bytes)
  have hlt : line - 1 < (octetLines bytes).length := by omega
  rw [List.drop_eq_getElem_cons hlt] at hsplit
  rw [lineLength, List.getElem?_eq_getElem hlt, Option.getD_some] at hend
  generalize (octetLines bytes)[line - 1] = octets at hsplit hend
  have habove : ((octetLines bytes).take (line - 1)).length = line - 1 := List.length_take_of_le (by omega)
  generalize (octetLines bytes).take (line - 1) = above at hsplit habove
  obtain ⟨left, right, rfl, hleft⟩ : ∃ left right, octets = left ++ right ∧ left.length = column - 1 :=
    ⟨_, _, (List.take_append_drop (column - 1) octets).symm, List.length_take_of_le (by omega)⟩
  obtain ⟨after, hbytes⟩ := exists_append_of_octetLines hsplit.symm
  have hbefore : bytes = (endedOctets above ++ left) ++ (right ++ after) := by rw [hbytes]; simp only [List.append_assoc]
  refine ⟨(endedOctets above ++ left).length, above, left, right, _, ?_, ⟨hsplit.symm, ?_⟩, ?_⟩
  · rw [hbefore]
    exact (List.prefix_append _ _).length_le
  · rw [hbefore, List.take_left]
  · rw [habove, hleft, Nat.sub_add_cancel hline, Nat.sub_add_cancel hcolumn]

/-- An offset past the end stands for the end. -/
theorem positionIn_min (bytes : List UInt8) (offset : Nat) :
    positionIn bytes (min offset bytes.length) = positionIn bytes offset := by
  rw [positionIn_eq, positionIn_eq, ← List.take_eq_take_min]

theorem positionIn_lt {bytes : List UInt8} {m n : Nat} (hlt : m < n) (hn : n ≤ bytes.length) :
    positionIn bytes m < positionIn bytes n := by
  obtain ⟨more, hmore⟩ : bytes.take m <+: bytes.take n := List.take_prefix_take_left (Nat.le_of_lt hlt)
  have hlength := congrArg List.length hmore
  rw [List.length_append, List.length_take_of_le (by omega), List.length_take_of_le hn] at hlength
  rw [Position.lt_def, positionIn_eq, positionIn_eq, ← hmore, List.count_append]
  by_cases hbreak : newline ∈ more
  · have hcount := List.count_pos_iff.2 hbreak
    exact .inl (by dsimp only; omega)
  · rw [List.count_eq_zero.2 hbreak, column_append hbreak]
    exact .inr ⟨rfl, by dsimp only; omega⟩

/-- Offsets up to the end of a text and the positions on its lines correspond one to one and in order, and an offset past
the end has the position of the end. The line of an offset counts the line feeds before it, and its column the octets
from the start of the line, which gives the offset back. -/
theorem position_bijOn (text : String) :
    Set.BijOn (position text) (Set.Iic (octets text).length) {p | p.IsIn (octets text)} ∧
      (∀ m n, m < n → n ≤ (octets text).length → position text m < position text n) ∧
      (∀ offset, (octets text).length ≤ offset → position text offset = position text (octets text).length) ∧
      ∀ offset, (position text offset).IsIn (octets text) ∧
        (position text offset).line = ((octets text).take (min offset (octets text).length)).count newline + 1 ∧
        lineStart (octets text) (position text offset).line + ((position text offset).column - 1) =
          min offset (octets text).length := by
  refine ⟨⟨?_, ?_, ?_⟩, fun m n => positionIn_lt, fun offset hoffset => ?_, fun offset => ?_⟩
  · intro offset hoffset
    obtain ⟨above, left, right, below, h⟩ := exists_onLine _ hoffset
    exact h.isIn
  · intro m hm n hn heq
    exact eq_of_positionIn_eq hm hn heq
  · intro p hp
    obtain ⟨offset, above, left, right, below, hoffset, h, rfl⟩ := hp.exists_onLine
    exact ⟨offset, hoffset, h.positionIn_eq⟩
  · rw [position, position, ← positionIn_min, Nat.min_eq_right hoffset]
  · have hle : min offset (octets text).length ≤ (octets text).length := Nat.min_le_right _ _
    obtain ⟨above, left, right, below, h⟩ := exists_onLine _ hle
    rw [position, ← positionIn_min]
    refine ⟨h.isIn, by rw [positionIn_eq], ?_⟩
    rw [h.positionIn_eq]
    exact h.lineStart_add_length hle

example : position "a: é\n" 7 = ⟨2, 1⟩ ∧ position "a: é\n" 500 = ⟨2, 1⟩ ∧ position "a: é\n" 4 = ⟨1, 5⟩ := by decide +kernel

end CloudTemplate.Text
