import CloudTemplate.Text.Position
import CloudTemplate.Text.Blank
import Mathlib.Data.List.Basic
/-! The line and column of a character. The octet of a line feed stands in no other character, so the lines of the
octets are the lines of the text, while columns count the octets of the characters that are passed. -/
namespace CloudTemplate.Text

def encode (cs : List Char) : List UInt8 := cs.flatMap String.utf8EncodeChar

@[simp] theorem encode_cons (c : Char) (cs : List Char) : encode (c :: cs) = String.utf8EncodeChar c ++ encode cs :=
  List.flatMap_cons

@[simp] theorem encode_append (cs ds : List Char) : encode (cs ++ ds) = encode cs ++ encode ds := List.flatMap_append

@[simp] theorem length_encode (cs : List Char) : (encode cs).length = byteLength cs := by
  induction cs with
  | nil => rfl
  | cons c cs ih => rw [encode_cons, List.length_append, String.length_utf8EncodeChar, ih, byteLength]

theorem toList_loop (bytes : ByteArray) (i : Nat) (read : List UInt8) :
    ByteArray.toList.loop bytes i read = read.reverse ++ bytes.data.toList.drop i := by
  fun_induction ByteArray.toList.loop bytes i read with
  | case1 i read h ih =>
    have hi : i < bytes.data.toList.length := by simpa using h
    rw [ih, List.drop_eq_getElem_cons hi]
    simp [ByteArray.get!, h]
  | case2 i read h => rw [List.drop_eq_nil_of_le (by simpa using Nat.le_of_not_lt h), List.append_nil]

theorem octets_eq_encode (text : String) : octets text = encode text.toList := by
  rw [octets, String.toUTF8_eq_toByteArray, ← String.utf8Encode_toList, List.utf8Encode, ByteArray.toList, toList_loop,
    List.toList_data_toByteArray]
  rfl

theorem not_mem_utf8EncodeChar {c : Char} (h : c ≠ '\n') : newline ∉ String.utf8EncodeChar c := by
  have hval : c.val.toNat ≠ 10 := fun hval => h (Char.ext (UInt32.toNat_inj.1 hval))
  have hoctet {n : Nat} (hn : n < 256) (hne : n ≠ 10) : newline ≠ UInt8.ofNat n := fun heq => hne <| by
    rw [← UInt8.toNat_ofNat_of_lt' hn, ← heq]
    rfl
  -- Each octet of a character of several octets is 128 at least.
  unfold String.utf8EncodeChar
  dsimp only
  split
  · simpa using hoctet (by omega) hval
  · split
    · simp only [List.mem_cons, List.not_mem_nil, or_false, not_or]
      exact ⟨hoctet (by omega) (by omega), hoctet (by omega) (by omega)⟩
    · split
      · simp only [List.mem_cons, List.not_mem_nil, or_false, not_or]
        exact ⟨hoctet (by omega) (by omega), hoctet (by omega) (by omega), hoctet (by omega) (by omega)⟩
      · simp only [List.mem_cons, List.not_mem_nil, or_false, not_or]
        exact ⟨hoctet (by omega) (by omega), hoctet (by omega) (by omega), hoctet (by omega) (by omega),
          hoctet (by omega) (by omega)⟩

/-- The lines of the octets are those of the text. -/
theorem count_newline_encode (cs : List Char) : (encode cs).count newline = cs.count '\n' := by
  induction cs with
  | nil => rfl
  | cons c cs ih =>
    rw [encode_cons, List.count_append, ih, List.count_cons, Nat.add_comm]
    by_cases h : c = '\n'
    · rw [h]
      rfl
    · rw [List.count_eq_zero_of_not_mem (not_mem_utf8EncodeChar h), if_neg (by simpa using h)]

theorem not_mem_encode {cs : List Char} (h : '\n' ∉ cs) : newline ∉ encode cs := by
  rw [← List.count_eq_zero, count_newline_encode]
  exact List.count_eq_zero.2 h

def ended (lines : List (List Char)) : List Char := lines.flatMap (· ++ ['\n'])

/-- Lists that are put together with a mark behind each, which stands in none of them, hold as many marks. -/
theorem count_flatMap_concat {α : Type} [DecidableEq α] {mark : α} {lists : List (List α)}
    (h : ∀ list ∈ lists, mark ∉ list) : (lists.flatMap (· ++ [mark])).count mark = lists.length := by
  induction lists with
  | nil => rfl
  | cons list lists ih =>
    rw [List.forall_mem_cons] at h
    rw [List.flatMap_cons, List.count_append, List.count_append, List.count_eq_zero.2 h.1, ih h.2,
      List.count_singleton_self, List.length_cons]
    omega

theorem count_ended {lines : List (List Char)} (h : ∀ line ∈ lines, '\n' ∉ line) :
    (ended lines).count '\n' = lines.length := count_flatMap_concat h

def column (before : List UInt8) : Nat := (before.reverse.takeWhile (· != newline)).length

theorem positionIn_eq (bytes : List UInt8) (offset : Nat) :
    positionIn bytes offset = ⟨(bytes.take offset).count newline + 1, column (bytes.take offset) + 1⟩ := rfl

theorem column_append {more : List UInt8} (h : newline ∉ more) (before : List UInt8) :
    column (before ++ more) = column before + more.length := by
  have hmore : ∀ b ∈ more.reverse, (b != newline) = true := by
    intro b hb
    rw [bne_iff_ne]
    rintro rfl
    exact h (List.mem_reverse.1 hb)
  rw [column, List.reverse_append, List.takeWhile_append_of_pos hmore, List.length_append, List.length_reverse,
    Nat.add_comm, column]

/-- Behind a line feed a line starts. -/
theorem column_newline (before : List UInt8) : column (before ++ [newline]) = 0 := by
  rw [column, List.reverse_append]
  rfl

theorem column_encode_ended (lines : List (List Char)) : column (encode (ended lines)) = 0 := by
  obtain rfl | ⟨lines, line, rfl⟩ := List.eq_nil_or_concat lines
  · rfl
  · rw [ended, List.concat_eq_append, List.flatMap_append, List.flatMap_singleton, ← List.append_assoc, encode_append]
    exact column_newline _

/-- The position of a character: a column counts the octets before it on its line. -/
theorem positionIn_encode {above : List (List Char)} {left : List Char} (habove : ∀ line ∈ above, '\n' ∉ line)
    (hleft : '\n' ∉ left) (after : List Char) :
    positionIn (encode (ended above ++ left ++ after)) (byteLength (ended above ++ left)) =
      ⟨above.length + 1, byteLength left + 1⟩ := by
  have htake : (encode (ended above ++ left ++ after)).take (byteLength (ended above ++ left)) =
      encode (ended above) ++ encode left := by
    rw [encode_append, ← length_encode, List.take_left, encode_append]
  have hline : (encode (ended above) ++ encode left).count newline = above.length := by
    rw [List.count_append, count_newline_encode, count_ended habove,
      List.count_eq_zero_of_not_mem (not_mem_encode hleft), Nat.add_zero]
  have hcolumn : column (encode (ended above) ++ encode left) = byteLength left := by
    rw [column_append (not_mem_encode hleft), column_encode_ended, Nat.zero_add, length_encode]
  rw [positionIn_eq, htake, hline, hcolumn]

/-- Offsets in a text that are shown alike are the same. -/
theorem eq_of_positionIn_eq {bytes : List UInt8} {m n : Nat} (hm : m ≤ bytes.length) (hn : n ≤ bytes.length)
    (h : positionIn bytes m = positionIn bytes n) : m = n := by
  wlog hle : m ≤ n generalizing m n
  · exact (this hn hm h.symm (Nat.le_of_not_le hle)).symm
  obtain ⟨more, hmore⟩ : bytes.take m <+: bytes.take n := List.take_prefix_take_left hle
  obtain ⟨hline, hcolumn⟩ := Position.mk.injEq .. ▸ h
  rw [← hmore, List.count_append] at hline
  have hbreak : newline ∉ more := List.count_eq_zero.1 (by omega)
  rw [← column, ← column, ← hmore, column_append hbreak] at hcolumn
  have hlength := congrArg List.length hmore
  rw [List.length_append, List.length_take_of_le hm, List.length_take_of_le hn] at hlength
  omega

theorem length_le_byteLength (cs : List Char) : cs.length ≤ byteLength cs := by
  induction cs with
  | nil => exact Nat.le_refl 0
  | cons c cs ih =>
    have hc := Char.utf8Size_pos c
    rw [List.length_cons, byteLength]
    omega

/-- There are as many octets as characters only where each character is one octet. -/
theorem length_eq_byteLength_iff (cs : List Char) : cs.length = byteLength cs ↔ ∀ c ∈ cs, c.utf8Size = 1 := by
  induction cs with
  | nil => simp [byteLength]
  | cons c cs ih =>
    have hc := Char.utf8Size_pos c
    have hcs := length_le_byteLength cs
    rw [List.length_cons, byteLength, List.forall_mem_cons, ← ih]
    omega

end CloudTemplate.Text
