import CloudTemplate.Proofs.Shorthand.StableLines
/-! What a step can do. It puts out at least one line, and the lines that it leaves stood in the queue or were moved
from there. -/
namespace CloudTemplate.Shorthand

def Expansion.IsNamed : Expansion → Prop
  | .block names _ => names ≠ []
  | _ => True

theorem names_ne_nil_of_fragment {value : Flow} {names : List String} {indicator : Option (List Char)}
    (h : value.fragment = .waiting names indicator) : names ≠ [] := by
  cases value with
  | call f argument =>
    rw [Flow.fragment] at h
    cases hargument : argument.fragment <;> rw [hargument] at h <;> cases h
    exact List.cons_ne_nil _ _
  | opened f indicator =>
    cases h
    exact List.cons_ne_nil _ _
  | _ => cases h

theorem isNamed_expandValue {value : List Char} {expansion : Expansion} (h : expandValue value = .ok expansion) :
    expansion.IsNamed := by
  rw [expandValue_eq] at h
  split at h
  · split at h
    · contradiction
    · rename_i value left _
      cases hfragment : value.fragment <;> rw [hfragment] at h <;> cases h
      · trivial
      · trivial
      · trivial
      · exact names_ne_nil_of_fragment hfragment
  · cases h
    trivial

theorem isNamed_expandLongForm {name : String} {argument : List Char} {expansion : Expansion}
    (h : expandLongForm name argument = .ok expansion) : expansion.IsNamed := by
  rw [expandLongForm_eq] at h
  split at h
  · cases h
    exact List.cons_ne_nil _ _
  · split at h
    · cases h
      exact List.cons_ne_nil _ _
    · split at h
      · contradiction
      · rename_i value left _
        split at h
        · cases hfragment : value.fragment <;> rw [hfragment] at h <;> cases h
          · trivial
          · trivial
          · trivial
          · exact List.cons_ne_nil _ _
        · contradiction

section Steps

variable {options : Options} {number : Nat} {text : List Char} {queue : List SourceLine} {outcome : Outcome}

/-- What becomes of an expansion: its line alone is put out, or a header with the body of the line moved below it, which
is put out too or waits. -/
theorem place_ok {layout : Layout} {expansion : Expansion}
    (h : place options number layout expansion queue = .ok outcome) :
    (∃ line, outcome = ⟨[line], queue⟩) ∨
      ∃ names indicator body rest column, expansion = .block names indicator ∧ queue = body ++ rest ∧
        (outcome = ⟨blockHeader layout names indicator ++ (reindent column body).map SourceLine.text, rest⟩ ∨
          outcome = ⟨blockHeader layout names indicator, reindent column body ++ rest⟩) := by
  cases expansion with
  | unchanged =>
    cases h
    exact .inl ⟨_, rfl⟩
  | inline value =>
    simp only [place] at h
    split at h <;> cases h <;> exact .inl ⟨_, rfl⟩
  | block names indicator =>
    have hbody := (bodyOf_append_drop layout.ownerColumn layout.keyColumn.isSome queue).symm
    simp only [place] at h
    split at h
    · cases h
      exact .inl ⟨_, rfl⟩
    · split at h
      · cases h
        exact .inr ⟨names, indicator, _, _, _, rfl, hbody, .inl rfl⟩
      · split at h
        · contradiction
        · cases h
          exact .inr ⟨names, indicator, _, _, _, rfl, hbody, .inr rfl⟩

theorem settle_ok (h : settle options number text queue = .ok outcome) :
    (∃ body rest, queue = body ++ rest ∧ outcome = ⟨text :: body.map SourceLine.text, rest⟩) ∨
      ∃ expansion, expansion.IsNamed ∧ place options number (Layout.of text) expansion queue = .ok outcome := by
  have hplace {result : Except FlowFault Expansion} (hnamed : ∀ expansion, result = .ok expansion → expansion.IsNamed)
      (h : (numbered number result).bind (fun expansion => place options number (Layout.of text) expansion queue) =
        .ok outcome) :
      ∃ expansion, expansion.IsNamed ∧ place options number (Layout.of text) expansion queue = .ok outcome := by
    cases result with
    | error fault => contradiction
    | ok expansion => exact ⟨expansion, hnamed expansion rfl, h⟩
  simp only [settle] at h
  split at h
  · cases h
    exact .inl ⟨_, _, (bodyOf_append_drop _ _ _).symm, rfl⟩
  · exact .inr (hplace (fun _ => isNamed_expandLongForm) h)
  · exact .inr (hplace (fun _ => isNamed_expandValue) h)

/-- A step puts out its line and some that follow it as they are, or settles a line in front of the rest. -/
theorem step_ok {line : SourceLine} (h : step options line queue = .ok outcome) :
    ∃ taken rest, queue = taken ++ rest ∧ (outcome = ⟨line.text :: taken.map SourceLine.text, rest⟩ ∨
      ∃ joined, settle options line.number joined rest = .ok outcome) := by
  simp only [step] at h
  split at h
  · split at h
    · cases h
      exact ⟨[], queue, rfl, .inl rfl⟩
    · split at h
      · rename_i joined taken rest hjoin
        obtain ⟨hqueue, -⟩ := joinFlow_ok hjoin
        split at h
        · exact ⟨taken, rest, hqueue, .inr ⟨joined, h⟩⟩
        · cases h
          exact ⟨taken, rest, hqueue, .inl rfl⟩
      · split at h
        · contradiction
        · cases h
          exact ⟨[], queue, rfl, .inl rfl⟩
  · exact ⟨[], queue, rfl, .inr ⟨line.text, h⟩⟩

theorem mem_queue_of_settle (h : settle options number text queue = .ok outcome) :
    ∀ line ∈ outcome.queue, line ∈ queue ∨ ∃ column, ∃ body ⊆ queue, line ∈ reindent column body := by
  intro line hline
  obtain ⟨body, rest, rfl, rfl⟩ | ⟨expansion, -, hplace⟩ := settle_ok h
  · exact .inl (List.mem_append_right body hline)
  · obtain ⟨_, rfl⟩ | ⟨_, _, body, rest, column, -, rfl, rfl | rfl⟩ := place_ok hplace
    · exact .inl hline
    · exact .inl (List.mem_append_right body hline)
    · cases List.mem_append.1 hline with
      | inl hmoved => exact .inr ⟨column, body, List.subset_append_left body rest, hmoved⟩
      | inr hrest => exact .inl (List.mem_append_right body hrest)

/-- Where the lines that a step leaves come from: they stood in the queue, or were moved from there. -/
theorem mem_queue_of_step {line : SourceLine} (h : step options line queue = .ok outcome) :
    ∀ other ∈ outcome.queue, other ∈ queue ∨ ∃ column, ∃ body ⊆ queue, other ∈ reindent column body := by
  intro other hother
  obtain ⟨taken, rest, rfl, rfl | ⟨joined, hsettle⟩⟩ := step_ok h
  · exact .inl (List.mem_append_right taken hother)
  · obtain hmem | ⟨column, body, hbody, hmem⟩ := mem_queue_of_settle hsettle other hother
    · exact .inl (List.mem_append_right taken hmem)
    · exact .inr ⟨column, body, List.subset_append_of_subset_right taken hbody, hmem⟩

end Steps

theorem appendLast_ne_nil {lines : List (List Char)} (h : lines ≠ []) (cs : List Char) : appendLast cs lines ≠ [] := by
  match lines, h with
  | [_], _ => simp [appendLast]
  | _ :: _ :: _, _ => simp [appendLast]

theorem appendFirst_ne_nil {lines : List (List Char)} (h : lines ≠ []) (cs : List Char) :
    appendFirst cs lines ≠ [] := by
  match lines, h with
  | _ :: _, _ => simp [appendFirst]

theorem blockHeader_ne_nil (layout : Layout) {names : List String} (h : names ≠ []) (indicator : Option (List Char)) :
    blockHeader layout names indicator ≠ [] := by
  obtain ⟨name, names, rfl⟩ := List.exists_cons_of_ne_nil h
  simp only [blockHeader]
  cases layout.keyColumn with
  | some column =>
    cases indicator with
    | none => simp
    | some text => exact appendLast_ne_nil (List.cons_ne_nil _ _) _
  | none =>
    dsimp only
    cases indicator with
    | none =>
      split
      · simp
      · simp [appendFirst]
    | some text =>
      have hlines := appendLast_ne_nil (List.cons_ne_nil (layout.lead ++ name.toList ++ [':'])
        (nameLines (layout.lead.length + 2) names)) (' ' :: text)
      split
      · exact hlines
      · exact appendFirst_ne_nil hlines _

/-- Every step puts out a line. -/
theorem lines_ne_nil_of_step {options : Options} {line : SourceLine} {queue : List SourceLine} {outcome : Outcome}
    (h : step options line queue = .ok outcome) : outcome.lines ≠ [] := by
  obtain ⟨taken, rest, -, rfl | ⟨joined, hsettle⟩⟩ := step_ok h
  · exact List.cons_ne_nil _ _
  · obtain ⟨body, _, -, rfl⟩ | ⟨expansion, hnamed, hplace⟩ := settle_ok hsettle
    · exact List.cons_ne_nil _ _
    · obtain ⟨_, rfl⟩ | ⟨names, indicator, _, _, _, rfl, -, rfl | rfl⟩ := place_ok hplace
      · exact List.cons_ne_nil _ _
      · exact List.append_ne_nil_of_left_ne_nil (blockHeader_ne_nil _ hnamed indicator) _
      · exact blockHeader_ne_nil _ hnamed indicator

theorem normalizeLines_ne_nil {options : Options} {queue : List SourceLine} (hne : queue ≠ []) {lines : List (List Char)}
    (h : normalizeLines options queue = .ok lines) : lines ≠ [] := by
  obtain ⟨line, queue, rfl⟩ := List.exists_cons_of_ne_nil hne
  rw [normalizeLines_cons] at h
  cases hstep : step options line queue with
  | error fault =>
    rw [hstep] at h
    contradiction
  | ok outcome =>
    rw [hstep] at h
    cases hrest : normalizeLines options outcome.queue with
    | error fault => simp [hrest, Except.map] at h
    | ok rest =>
      obtain rfl : outcome.lines ++ rest = lines := by simpa [hrest, Except.map] using h
      exact List.append_ne_nil_of_left_ne_nil (lines_ne_nil_of_step hstep) rest

end CloudTemplate.Shorthand
