import CloudTemplate.Proofs.Text.Trim
import CloudTemplate.Shorthand.Block
/-! The lines in front of a block, one for each function. Behind a key they start on lines of their own;
without one the first of them stands where the value stood. -/
namespace CloudTemplate.Shorthand

theorem appendLast_cons {lines : List (List Char)} (h : lines ≠ []) (cs line : List Char) :
    appendLast cs (line :: lines) = line :: appendLast cs lines := by
  cases lines with
  | nil => contradiction
  | cons other lines => rfl

theorem nameLines_ne_nil {names : List String} (h : names ≠ []) (column : Nat) : nameLines column names ≠ [] := by
  cases names with
  | nil => contradiction
  | cons name names => exact List.cons_ne_nil _ _

variable {layout : Layout}

section Characters

variable {c : Char}

theorem not_mem_appendLast {cs : List Char} {lines : List (List Char)} (hcs : c ∉ cs) (hlines : ∀ line ∈ lines, c ∉ line) :
    ∀ line ∈ appendLast cs lines, c ∉ line := by
  induction lines with
  | nil => simp [appendLast]
  | cons line lines ih =>
    rw [List.forall_mem_cons] at hlines
    cases lines with
    | nil => simp [appendLast, hcs, hlines.1]
    | cons other lines => exact List.forall_mem_cons.2 ⟨hlines.1, ih hlines.2⟩

theorem not_mem_appendFirst {cs : List Char} {lines : List (List Char)} (hcs : c ∉ cs) (hlines : ∀ line ∈ lines, c ∉ line) :
    ∀ line ∈ appendFirst cs lines, c ∉ line := by
  cases lines with
  | nil => simp [appendFirst]
  | cons line lines =>
    rw [List.forall_mem_cons] at hlines
    exact List.forall_mem_cons.2 ⟨by simp [hlines.1, hcs], hlines.2⟩

theorem not_mem_nameLines (hspace : c ≠ ' ') (hcolon : c ≠ ':') {names : List String}
    (hnames : ∀ name ∈ names, c ∉ name.toList) (column : Nat) : ∀ line ∈ nameLines column names, c ∉ line := by
  induction names generalizing column with
  | nil => simp [nameLines]
  | cons name names ih =>
    rw [List.forall_mem_cons] at hnames
    refine List.forall_mem_cons.2 ⟨?_, ih hnames.2 (column + 2)⟩
    simp [Text.spaces, hspace, hcolon, hnames.1]

/-- The characters of a header are those of its line, of the functions and of the indicator. -/
theorem not_mem_blockHeader (hspace : c ≠ ' ') (hcolon : c ≠ ':') (htext : c ∉ layout.text) {names : List String}
    (hnames : ∀ name ∈ names, c ∉ name.toList) {indicator : Option (List Char)} (hindicator : ∀ text ∈ indicator, c ∉ text) :
    ∀ header ∈ blockHeader layout names indicator, c ∉ header := by
  have hannounced {text : List Char} {lines : List (List Char)} (htext : c ∉ text) (hlines : ∀ line ∈ lines, c ∉ line) :
      ∀ line ∈ appendLast (' ' :: text) lines, c ∉ line := not_mem_appendLast (by simp [hspace, htext]) hlines
  simp only [Layout.text, List.mem_append, not_or] at htext
  obtain ⟨⟨hlead, -⟩, htrailing⟩ := htext
  cases hcolumn : layout.keyColumn with
  | some column =>
    have hend : c ∉ Text.trimEnd layout.lead := fun hmem => hlead ((Text.prefix_trimEnd _).subset hmem)
    have hlines : ∀ line ∈ (Text.trimEnd layout.lead ++ layout.trailing) :: nameLines (column + 2) names, c ∉ line :=
      List.forall_mem_cons.2 ⟨List.not_mem_append hend htrailing, not_mem_nameLines hspace hcolon hnames _⟩
    cases indicator with
    | none => simpa only [blockHeader, hcolumn] using hlines
    | some text => simpa only [blockHeader, hcolumn] using hannounced (hindicator text rfl) hlines
  | none =>
    have htrailed {lines : List (List Char)} (hlines : ∀ line ∈ lines, c ∉ line) :
        ∀ line ∈ if Text.isBlankText layout.trailing then lines else appendFirst layout.trailing lines, c ∉ line := by
      split
      · exact hlines
      · exact not_mem_appendFirst htrailing hlines
    cases names with
    | nil => cases indicator <;> simp [blockHeader, hcolumn, appendLast, appendFirst]
    | cons name names =>
      rw [List.forall_mem_cons] at hnames
      have hfirst : c ∉ layout.lead ++ name.toList ++ [':'] := by simp [hlead, hnames.1, hcolon]
      have hlines : ∀ line ∈ (layout.lead ++ name.toList ++ [':']) :: nameLines (layout.lead.length + 2) names,
          c ∉ line := List.forall_mem_cons.2 ⟨hfirst, not_mem_nameLines hspace hcolon hnames.2 _⟩
      cases indicator with
      | none => simpa only [blockHeader, hcolumn] using htrailed hlines
      | some text => simpa only [blockHeader, hcolumn] using htrailed (hannounced (hindicator text rfl) hlines)

end Characters

theorem trimEnd_lead {key gap : List Char} (hkey : layout.key = some (key, gap))
    (hgap : ∀ c ∈ gap, Text.isSpace c = true) : Text.trimEnd layout.lead = layout.opening ++ (key ++ [':']) := by
  have hblank : ∀ c ∈ gap, Text.isBlank c = true := by
    intro c hc
    rw [beq_iff_eq.1 (hgap c hc)]
    rfl
  have htext : layout.lead = layout.opening ++ key ++ [':'] ++ gap := by simp [Layout.lead, hkey]
  rw [htext, Text.trimEnd_append_blank _ hblank, Text.trimEnd_concat rfl, List.append_assoc]

theorem blockHeader_key {key gap : List Char} (hkey : layout.key = some (key, gap))
    (hgap : ∀ c ∈ gap, Text.isSpace c = true) (names : List String) :
    blockHeader layout names none =
      (layout.opening ++ (key ++ ':' :: layout.trailing)) :: nameLines (layout.opening.length + 2) names := by
  simp [blockHeader, Layout.keyColumn, hkey, trimEnd_lead hkey hgap]

theorem blockHeader_key_announced {key gap : List Char} (hkey : layout.key = some (key, gap))
    (hgap : ∀ c ∈ gap, Text.isSpace c = true) {names : List String} (hne : names ≠ []) (indicator : List Char) :
    blockHeader layout names (some indicator) =
      (layout.opening ++ (key ++ ':' :: layout.trailing)) ::
        appendLast (' ' :: indicator) (nameLines (layout.opening.length + 2) names) := by
  simp [blockHeader, Layout.keyColumn, hkey, trimEnd_lead hkey hgap, appendLast_cons (nameLines_ne_nil hne _)]

def Layout.remark (layout : Layout) : List Char := if Text.isBlankText layout.trailing then [] else layout.trailing

theorem blockHeader_value (hkey : layout.key = none) (name : String) (names : List String) :
    blockHeader layout (name :: names) none =
      (layout.opening ++ (name.toList ++ ':' :: layout.remark)) :: nameLines (layout.opening.length + 2) names := by
  rw [Layout.remark]
  split
  · simp [blockHeader, Layout.keyColumn, Layout.lead, *]
  · simp [blockHeader, Layout.keyColumn, Layout.lead, appendFirst, *]

theorem blockHeader_value_announced (hkey : layout.key = none) (name : String) (indicator : List Char) :
    blockHeader layout [name] (some indicator) =
      [layout.opening ++ (name.toList ++ ':' :: ' ' :: (indicator ++ layout.remark))] := by
  rw [Layout.remark]
  split
  · simp [blockHeader, Layout.keyColumn, Layout.lead, nameLines, appendLast, *]
  · simp [blockHeader, Layout.keyColumn, Layout.lead, nameLines, appendLast, appendFirst, *]

theorem blockHeader_values_announced (hkey : layout.key = none) (name : String) {names : List String} (hne : names ≠ [])
    (indicator : List Char) :
    blockHeader layout (name :: names) (some indicator) =
      (layout.opening ++ (name.toList ++ ':' :: layout.remark)) ::
        appendLast (' ' :: indicator) (nameLines (layout.opening.length + 2) names) := by
  rw [Layout.remark]
  split
  · simp [blockHeader, Layout.keyColumn, Layout.lead, appendLast_cons (nameLines_ne_nil hne _), *]
  · simp [blockHeader, Layout.keyColumn, Layout.lead, appendLast_cons (nameLines_ne_nil hne _), appendFirst, *]

end CloudTemplate.Shorthand
