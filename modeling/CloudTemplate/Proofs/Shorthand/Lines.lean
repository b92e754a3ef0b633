import CloudTemplate.Shorthand.Normalize
/-! The lines of a document, and what a run over a queue of lines puts out: a step's lines come first,
and then those of the queue that it leaves. -/
namespace CloudTemplate.Shorthand

theorem splitLines_eq (cs : List Char) : splitLines cs = cs.splitOn '\n' := by
  induction cs with
  | nil => rfl
  | cons c cs ih =>
    have hne := List.splitOn_ne_nil '\n' cs
    rw [splitLines, ih, List.splitOn_cons_eq_if_modifyHead]
    by_cases hc : c = '\n'
    · simp [hc]
    · cases hlines : cs.splitOn '\n' with
      | nil => exact absurd hlines hne
      | cons line lines => simp [hc]

theorem splitLines_joinLines {lines : List (List Char)} (hne : lines ≠ [])
    (h : ∀ line ∈ lines, '\n' ∉ line) : splitLines (joinLines lines) = lines := by
  rw [splitLines_eq, joinLines, List.splitOn_intercalate _ h hne]

theorem joinLines_splitLines (cs : List Char) : joinLines (splitLines cs) = cs := by
  rw [splitLines_eq, joinLines, List.intercalate_splitOn]

theorem splitLines_ne_nil (cs : List Char) : splitLines cs ≠ [] := by
  rw [splitLines_eq]
  exact List.splitOn_ne_nil '\n' cs

theorem splitLines_append (cs ds : List Char) : splitLines (cs ++ '\n' :: ds) = splitLines cs ++ splitLines ds := by
  induction cs with
  | nil => rfl
  | cons c cs ih =>
    rw [List.cons_append, splitLines, splitLines, ih]
    by_cases hc : c = '\n'
    · rw [if_pos hc, if_pos hc, List.cons_append]
    · rw [if_neg hc, if_neg hc]
      cases hlines : splitLines cs with
      | nil => exact absurd hlines (splitLines_ne_nil cs)
      | cons line lines => rfl

theorem mem_of_mem_splitLines {cs : List Char} : ∀ line ∈ splitLines cs, ∀ c ∈ line, c ∈ cs ∧ c ≠ '\n' := by
  induction cs with
  | nil => simp [splitLines]
  | cons c cs ih =>
    intro line hline d hd
    rw [splitLines] at hline
    by_cases hc : c = '\n'
    · rw [if_pos hc] at hline
      obtain rfl | hline := List.mem_cons.1 hline
      · contradiction
      · exact (ih line hline d hd).imp_left (List.mem_cons_of_mem c)
    · rw [if_neg hc] at hline
      cases hlines : splitLines cs with
      | nil =>
        obtain rfl : line = [c] := by simpa [hlines] using hline
        obtain rfl : d = c := by simpa using hd
        exact ⟨List.mem_cons_self, hc⟩
      | cons first rest =>
        rw [hlines] at hline ih
        obtain rfl | hline := List.mem_cons.1 hline
        · obtain rfl | hd := List.mem_cons.1 hd
          · exact ⟨List.mem_cons_self, hc⟩
          · exact (ih first List.mem_cons_self d hd).imp_left (List.mem_cons_of_mem c)
        · exact (ih line (List.mem_cons_of_mem first hline) d hd).imp_left (List.mem_cons_of_mem c)

theorem joinLines_cons {lines : List (List Char)} (h : lines ≠ []) (line : List Char) :
    joinLines (line :: lines) = line ++ '\n' :: joinLines lines := by
  rw [joinLines, List.intercalate_cons_of_ne_nil h, List.append_assoc]
  rfl

theorem joinLines_append {lines more : List (List Char)} (hlines : lines ≠ []) (hmore : more ≠ []) :
    joinLines (lines ++ more) = joinLines lines ++ '\n' :: joinLines more := by
  induction lines with
  | nil => contradiction
  | cons line lines ih =>
    rw [List.cons_append, joinLines_cons (by simp [hmore])]
    cases lines with
    | nil => simp [joinLines]
    | cons next lines =>
      rw [ih (List.cons_ne_nil next lines), joinLines_cons (List.cons_ne_nil next lines) line, List.append_assoc,
        List.cons_append]

theorem mem_joinLines {lines : List (List Char)} {c : Char} (h : c ∈ joinLines lines) :
    c = '\n' ∨ ∃ line ∈ lines, c ∈ line := by
  induction lines with
  | nil => contradiction
  | cons line lines ih =>
    obtain rfl | ⟨front, last, hlines⟩ := List.eq_nil_or_concat lines
    · exact .inr ⟨line, List.mem_cons_self, by simpa [joinLines] using h⟩
    · rw [joinLines_cons (by simp [hlines]), List.mem_append, List.mem_cons] at h
      obtain h | h | h := h
      · exact .inr ⟨line, List.mem_cons_self, h⟩
      · exact .inl h
      · obtain hbreak | ⟨other, hother, hc⟩ := ih h
        · exact .inl hbreak
        · exact .inr ⟨other, List.mem_cons_of_mem line hother, hc⟩

theorem not_mem_doubleQuotes (cs : List Char) : '\'' ∉ doubleQuotes cs := by
  intro hmem
  obtain ⟨c, -, hc⟩ := List.mem_map.1 hmem
  split at hc
  · contradiction
  · contradiction

theorem mem_of_mem_doubleQuotes {c : Char} {cs : List Char} (h : c ∈ doubleQuotes cs) : c = '"' ∨ c ∈ cs := by
  obtain ⟨d, hd, rfl⟩ := List.mem_map.1 h
  split
  · exact .inl rfl
  · exact .inr hd

theorem doubleQuotes_of_not_mem {cs : List Char} (h : '\'' ∉ cs) : doubleQuotes cs = cs :=
  calc doubleQuotes cs = cs.map id := List.map_congr_left fun _ hc => if_neg (ne_of_mem_of_not_mem hc h)
    _ = cs := List.map_id cs

theorem splitLines_doubleQuotes (cs : List Char) : splitLines (doubleQuotes cs) = (splitLines cs).map doubleQuotes := by
  induction cs with
  | nil => rfl
  | cons c cs ih =>
    have hbreak : (if c = '\'' then '"' else c) = '\n' ↔ c = '\n' := by
      by_cases hquote : c = '\''
      · simp [hquote]
      · rw [if_neg hquote]
    rw [doubleQuotes, List.map_cons, splitLines, ← doubleQuotes, ih, splitLines]
    by_cases hc : c = '\n'
    · rw [if_pos hc, if_pos (hbreak.2 hc)]
      rfl
    · rw [if_neg hc, if_neg fun h => hc (hbreak.1 h)]
      cases splitLines cs <;> rfl

theorem map_text_numberLines (first : Nat) (lines : List (List Char)) :
    (numberLines first lines).map SourceLine.text = lines := by
  induction lines generalizing first with
  | nil => rfl
  | cons line lines ih => simp [numberLines, ih]

theorem normalizeLines_nil (options : Options) : normalizeLines options [] = .ok [] := by
  rw [normalizeLines]

theorem normalizeLines_cons (options : Options) (line : SourceLine) (queue : List SourceLine) :
    normalizeLines options (line :: queue) =
      match step options line queue with
      | .error fault => .error fault
      | .ok outcome => (normalizeLines options outcome.queue).map (outcome.lines ++ ·) := by
  rw [normalizeLines]
  split
  · rename_i h
    rw [h]
  · rename_i outcome h
    simp only [h]
    cases normalizeLines options outcome.queue <;> rfl

section OpenFlow

variable {options : Options} {line : SourceLine} {queue : List SourceLine}
  (hform : Form.of options (Layout.of line.text) = .openFlow) (hmultiline : options.isEnabled .multiline = true)

include hform hmultiline

/-- An open collection that lines close is treated as a line of its own if there is a mark in it. -/
theorem step_joined {joined : List Char} {taken rest : List SourceLine}
    (hjoin : joinFlow ((Layout.of line.text).lead ++ (Layout.of line.text).value) queue = some (joined, taken, rest)) :
    step options line queue =
      if hasMark joined = true then settle options line.number joined rest
      else .ok ⟨line.text :: taken.map SourceLine.text, rest⟩ := by
  simp [step, hform, hmultiline, hjoin]

/-- An open collection that no line closes is a fault if there is a mark in its first line. -/
theorem step_unjoined
    (hjoin : joinFlow ((Layout.of line.text).lead ++ (Layout.of line.text).value) queue = none) :
    step options line queue =
      if hasMark (Layout.of line.text).value = true then .error ⟨line.number, .neverClosed⟩
      else .ok ⟨[line.text], queue⟩ := by
  simp [step, hform, hmultiline, hjoin]

end OpenFlow

/-- A step that succeeds puts its lines in front of those of the queue that it leaves. -/
theorem normalizeLines_of_step {options : Options} {line : SourceLine} {queue rest : List SourceLine}
    {lines : List (List Char)} (h : step options line queue = .ok ⟨lines, rest⟩) :
    normalizeLines options (line :: queue) = (normalizeLines options rest).map (lines ++ ·) := by
  rw [normalizeLines_cons, h]

/-- Induction along a run: a step that succeeds hands over to the queue that it leaves. -/
theorem runInduction (options : Options) {motive : List SourceLine → Prop} (nil : motive [])
    (fault : ∀ line queue fault, step options line queue = .error fault → motive (line :: queue))
    (next : ∀ line queue outcome, step options line queue = .ok outcome → motive outcome.queue → motive (line :: queue))
    (queue : List SourceLine) : motive queue := by
  induction hlength : queue.length using Nat.strongRecOn generalizing queue with
  | ind n ih =>
    cases queue with
    | nil => exact nil
    | cons line queue =>
      cases hstep : step options line queue with
      | error reason => exact fault line queue reason hstep
      | ok outcome =>
        have hshorter : outcome.queue.length < n := hlength ▸ Nat.lt_succ_of_le (length_step_le hstep)
        exact next line queue outcome hstep (ih _ hshorter outcome.queue rfl)

theorem joinLines_singleton (line : List Char) : joinLines [line] = line := by simp [joinLines]

theorem splitLines_of_not_mem {line : List Char} (h : '\n' ∉ line) : splitLines line = [line] := by
  have hsplit := splitLines_joinLines (List.cons_ne_nil line []) (by simpa using h)
  rwa [joinLines_singleton] at hsplit

/-- The lines of a document of one line. -/
theorem numberLines_of_not_mem {line : List Char} (hbreak : '\n' ∉ line) (hquote : '\'' ∉ line) :
    numberLines 1 (splitLines (doubleQuotes line)) = [⟨1, line⟩] := by
  rw [doubleQuotes_of_not_mem hquote, splitLines_of_not_mem hbreak, numberLines, numberLines]

theorem normalizeText_of_step {options : Options} {line out : List Char} (hbreak : '\n' ∉ line) (hquote : '\'' ∉ line)
    (h : step options ⟨1, line⟩ [] = .ok ⟨[out], []⟩) : normalizeText options line = .ok out := by
  rw [normalizeText, numberLines_of_not_mem hbreak hquote, normalizeLines_of_step h, normalizeLines_nil]
  simp [Except.map, joinLines]

end CloudTemplate.Shorthand
