import CloudTemplate.Text.Blank
import Mathlib.Data.List.DropRight
/-! Trimming a text that is put together from parts: blanks behind a text that ends without one are
all that is lost. -/
namespace CloudTemplate.Text

theorem isBlank_of_isGap {c : Char} (h : isGap c = true) : isBlank c = true := by
  obtain h | h := Bool.or_eq_true_iff.1 h <;> rw [beq_iff_eq.1 h] <;> decide

theorem isBlank_of_isSpace {c : Char} (h : isSpace c = true) : isBlank c = true := by
  rw [beq_iff_eq.1 h]
  rfl

theorem trim_of_isBlank {cs : List Char} (h : ∀ c ∈ cs, isBlank c = true) : trim cs = [] := by
  rw [trim, trimStart, List.dropWhile_eq_nil_iff.2 h]
  rfl

theorem trimEnd_append_blank (cs : List Char) {gap : List Char} (h : ∀ c ∈ gap, isBlank c = true) :
    trimEnd (cs ++ gap) = trimEnd cs := by
  rw [trimEnd, trimStart, List.reverse_append, List.dropWhile_append_of_pos (by simpa using h)]
  rfl

/-- Only blanks are lost at the end of a text. -/
theorem exists_trimEnd_append (cs : List Char) :
    ∃ blanks, trimEnd cs ++ blanks = cs ∧ ∀ c ∈ blanks, isBlank c = true :=
  ⟨_, trimEnd_append_rest cs, fun _ hc => List.mem_takeWhile_imp (List.mem_reverse.1 hc)⟩

/-- What is left ends without a blank. -/
theorem isBlank_getLast_trimEnd (cs : List Char) : ∀ c ∈ (trimEnd cs).getLast?, isBlank c = false := by
  intro c hc
  have hhead := List.head?_dropWhile_not isBlank cs.reverse
  rw [trimEnd, List.getLast?_reverse] at hc
  rw [← trimStart, hc] at hhead
  exact hhead

theorem prefix_trimEnd (cs : List Char) : trimEnd cs <+: cs := ⟨_, trimEnd_append_rest cs⟩

theorem trimEnd_trimEnd (cs : List Char) : trimEnd (trimEnd cs) = trimEnd cs := by
  rw [trimEnd, trimEnd, List.reverse_reverse, trimStart, trimStart, List.dropWhile_idempotent]

theorem trimEnd_concat {cs : List Char} {c : Char} (h : isBlank c = false) :
    trimEnd (cs ++ [c]) = cs ++ [c] := by
  simp [trimEnd, trimStart, h]

theorem trimEnd_of_getLast {cs : List Char} (h : ∀ c ∈ cs.getLast?, isBlank c = false) : trimEnd cs = cs := by
  obtain rfl | ⟨front, c, rfl⟩ := List.eq_nil_or_concat' cs
  · rfl
  · exact trimEnd_concat (h c (by simp))

theorem trimEnd_eq_self {cs : List Char} (h : ∀ c ∈ cs, isBlank c = false) : trimEnd cs = cs :=
  trimEnd_of_getLast fun c hc => h c (List.mem_of_getLast? hc)

/-- A text that keeps its end keeps it behind any other text. -/
theorem trimEnd_append {cs ds : List Char} (hne : ds ≠ []) (h : trimEnd ds = ds) :
    trimEnd (cs ++ ds) = cs ++ ds := by
  obtain ⟨front, c, rfl⟩ : ∃ front c, ds = front ++ [c] :=
    ⟨ds.dropLast, ds.getLast hne, (List.dropLast_concat_getLast hne).symm⟩
  have hc : isBlank c = false := by
    refine Bool.eq_false_iff.2 fun hblank => ?_
    have hlost := trimEnd_append_blank front (show ∀ d ∈ [c], isBlank d = true by simpa using hblank)
    have hlength := length_trimEnd_le front
    rw [← hlost, h] at hlength
    simp only [List.length_append, List.length_singleton] at hlength
    omega
  rw [← List.append_assoc, trimEnd_concat hc]

/-- What ends a text that keeps its end keeps it too. -/
theorem trimEnd_of_suffix {cs ds : List Char} (h : ds <:+ cs) (hcs : trimEnd cs = cs) : trimEnd ds = ds := by
  obtain ⟨front, rfl⟩ := h
  obtain ⟨blanks, hds, hblanks⟩ := exists_trimEnd_append ds
  have hlost : trimEnd (front ++ ds) = trimEnd (front ++ trimEnd ds) := by
    rw [← trimEnd_append_blank (front ++ trimEnd ds) hblanks, List.append_assoc, hds]
  have hlength := length_trimEnd_le (front ++ trimEnd ds)
  rw [← hlost, hcs, List.length_append, List.length_append] at hlength
  exact (prefix_trimEnd ds).eq_of_length_le (by omega)

end CloudTemplate.Text
