import CloudTemplate.Proofs.Shorthand.Headers
import CloudTemplate.Proofs.Shorthand.Tidy
/-! The lines of functions in front of a block hold no shorthand, and a block scalar behind them is
covered by the last of them. -/
namespace CloudTemplate.Shorthand

theorem IsName.not_mem {name : String} (h : IsName name) {c : Char} (hc : isNameChar c = false) : c ∉ name.toList := by
  intro hmem
  rw [h c hmem] at hc
  contradiction

/-- Letters, digits and colons make up the key of a line. -/
theorem blockKey_of_isNameChar {key : List Char} (h : ∀ c ∈ key, isNameChar c = true) : BlockKey .read key := by
  have hstays : staysBlockKey key = true := by
    fun_induction staysBlockKey key with
    | case1 => rfl
    | case2 => exact absurd (h ' ' (by simp)) (by decide)
    | case3 => exact absurd (h ' ' (by simp)) (by decide)
    | case4 c cs _ _ ih =>
      have hquote : c ≠ '"' := by
        intro hc
        exact absurd (h c List.mem_cons_self) (by rw [hc]; decide)
      rw [ih fun d hd => h d (List.mem_cons_of_mem c hd)]
      simpa using hquote
  refine .plain ?_ hstays
  cases key with
  | nil => rfl
  | cons c cs =>
    have hc : isNameChar c = true := h c List.mem_cons_self
    have hne (d : Char) (hd : isNameChar d = false) : c ≠ d := by
      intro heq
      rw [heq, hd] at hc
      contradiction
    have hmark := hne '!' rfl
    have hbracket := hne '[' rfl
    have hbrace := hne '\x7b' rfl
    have hsharp := hne '#' rfl
    have hpipe := hne '|' rfl
    have hangle := hne '>' rfl
    have hspace := hne ' ' rfl
    have hdash := hne '-' rfl
    simp [startsBlockKey, hmark, hbracket, hbrace, hsharp, hpipe, hangle, hspace, hdash]

theorem IsName.blockKey {name : String} (h : IsName name) : BlockKey .read name.toList := blockKey_of_isNameChar h

theorem opensFlow_of_isBlockIndicator {indicator : List Char} (h : isBlockIndicator indicator = true) :
    opensFlow indicator = false := by
  cases indicator with
  | nil => rfl
  | cons c cs =>
    have hne (d : Char) (hd : isBlockIndicator [d] = false) (hd' : isBlockIndicator ['|', d] = false) : c ≠ d :=
      ne_of_mem_indicator h List.mem_cons_self hd hd'
    have hmark := hne '!' rfl rfl
    have hbracket := hne '[' rfl rfl
    have hbrace := hne '\x7b' rfl rfl
    simp [opensFlow, hmark, hbracket, hbrace]

section Names

variable {opening trailing : List Char} {name : String}

theorem IsName.splitKey (hname : IsName name) : splitKey (name.toList ++ ':' :: [' ']) = some (name.toList, [' ']) :=
  hname.blockKey.splitKey rfl

theorem IsName.keyLine (hname : IsName name) (h : Opening opening) (htrailing : IsTrailing trailing) :
    KeyLine (opening ++ (name.toList ++ ':' :: trailing)) :=
  .mk h hname.splitKey (hname.blockKey.takeOpening _) htrailing

theorem IsName.announces (hname : IsName name) (h : Opening opening) {indicator : List Char}
    (hindicator : isBlockIndicator indicator = true) (htrailing : IsTrailing trailing) :
    Announces indicator opening.length [opening ++ (name.toList ++ ':' :: ' ' :: (indicator ++ trailing))] :=
  .of_key h hname.splitKey (hname.blockKey.takeOpening _) hindicator htrailing

end Names

theorem keyLine_of_mem_nameLines {names : List String} (hnames : ∀ name ∈ names, IsName name) (column : Nat) :
    ∀ line ∈ nameLines column names, KeyLine line := by
  induction names generalizing column with
  | nil => simp [nameLines]
  | cons name names ih =>
    rw [List.forall_mem_cons] at hnames
    have hfirst := hnames.1.keyLine (.spaces column) .nil
    rw [← List.append_assoc] at hfirst
    exact List.forall_mem_cons.2 ⟨hfirst, ih hnames.2 (column + 2)⟩

/-- The last of the functions announces the block scalar. -/
theorem announces_nameLines {names : List String} (hne : names ≠ []) (hnames : ∀ name ∈ names, IsName name)
    {indicator : List Char} (hindicator : isBlockIndicator indicator = true) (column : Nat) :
    ∃ last, column ≤ last ∧ last < column + 2 * names.length ∧
      Announces indicator last (appendLast (' ' :: indicator) (nameLines column names)) := by
  induction names generalizing column with
  | nil => contradiction
  | cons name names ih =>
    rw [List.forall_mem_cons] at hnames
    cases names with
    | nil =>
      have hlast := hnames.1.announces (.spaces column) hindicator .nil
      refine ⟨column, le_refl column, by simp, ?_⟩
      simpa [nameLines, appendLast, Text.spaces] using hlast
    | cons other others =>
      obtain ⟨last, hle, hlt, hrest⟩ := ih (List.cons_ne_nil other others) hnames.2 (column + 2)
      have hfirst := hnames.1.keyLine (.spaces column) .nil
      rw [← List.append_assoc] at hfirst
      refine ⟨last, by omega, ?_, .behind hfirst hrest⟩
      simp only [List.length_cons] at hlt ⊢
      omega

section Headers

variable {P : List Char → Prop} {line : List Char} {names : List String}

theorem not_mem_parts (hline : '\n' ∉ line) :
    '\n' ∉ (Layout.of line).lead ∧ '\n' ∉ (Layout.of line).value ∧ '\n' ∉ (Layout.of line).trailing := by
  rw [← Layout.text_of line] at hline
  simpa [Layout.text, and_assoc] using hline

/-- The remark on a line without a key. -/
theorem isTrailing_remark (h : (Layout.of line).value ≠ []) : IsTrailing (Layout.of line).remark := by
  rw [Layout.remark]
  split
  · exact .nil
  · exact Layout.isTrailing h

/-- The first line of a header behind a key. -/
theorem keyLine_of_key (hvalue : (Layout.of line).value ≠ []) {key gap : List Char}
    (hkey : (Layout.of line).key = some (key, gap)) :
    KeyLine ((Layout.of line).opening ++ (key ++ ':' :: (Layout.of line).trailing)) := by
  obtain ⟨hopening, hparts⟩ := Layout.parts_of hvalue
  obtain ⟨-, -, cs, after, hsplit, hstart⟩ := hparts key gap hkey
  exact .mk hopening hsplit hstart (Layout.isTrailing hvalue)

theorem keyLine_of_mem_blockHeader (hvalue : (Layout.of line).value ≠ []) (hne : names ≠ [])
    (hnames : ∀ name ∈ names, IsName name) : ∀ header ∈ blockHeader (Layout.of line) names none, KeyLine header := by
  obtain ⟨hopening, hparts⟩ := Layout.parts_of hvalue
  cases hkey : (Layout.of line).key with
  | some parts =>
    obtain ⟨key, gap⟩ := parts
    rw [blockHeader_key hkey (hparts key gap hkey).1]
    exact List.forall_mem_cons.2 ⟨keyLine_of_key hvalue hkey, keyLine_of_mem_nameLines hnames _⟩
  | none =>
    obtain ⟨name, names, rfl⟩ := List.exists_cons_of_ne_nil hne
    rw [List.forall_mem_cons] at hnames
    rw [blockHeader_value hkey]
    exact List.forall_mem_cons.2
      ⟨hnames.1.keyLine hopening (isTrailing_remark hvalue), keyLine_of_mem_nameLines hnames.2 _⟩

/-- The owner of the block scalar stands before it, and no further left than the key of the line. -/
theorem announces_blockHeader (hvalue : (Layout.of line).value ≠ []) (hne : names ≠ [])
    (hnames : ∀ name ∈ names, IsName name) {indicator : List Char} (hindicator : isBlockIndicator indicator = true) :
    ∃ column, (Layout.of line).opening.length ≤ column ∧ column < blockColumn (Layout.of line) names ∧
      Announces indicator column (blockHeader (Layout.of line) names (some indicator)) := by
  obtain ⟨hopening, hparts⟩ := Layout.parts_of hvalue
  cases hkey : (Layout.of line).key with
  | some parts =>
    obtain ⟨key, gap⟩ := parts
    have hblock : blockColumn (Layout.of line) names = (Layout.of line).opening.length + 2 + 2 * names.length := by
      simp [blockColumn, Layout.keyColumn, hkey]
    obtain ⟨column, hle, hlt, hlines⟩ :=
      announces_nameLines hne hnames hindicator ((Layout.of line).opening.length + 2)
    rw [blockHeader_key_announced hkey (hparts key gap hkey).1 hne, hblock]
    exact ⟨column, by omega, hlt, .behind (keyLine_of_key hvalue hkey) hlines⟩
  | none =>
    have hblock : blockColumn (Layout.of line) names = (Layout.of line).opening.length + 2 * names.length := by
      simp [blockColumn, Layout.keyColumn, Layout.lead, hkey]
    obtain ⟨name, names, rfl⟩ := List.exists_cons_of_ne_nil hne
    rw [List.forall_mem_cons] at hnames
    have hremark := isTrailing_remark hvalue
    cases names with
    | nil =>
      rw [blockHeader_value_announced hkey, hblock]
      exact ⟨_, le_refl _, by simp, hnames.1.announces hopening hindicator hremark⟩
    | cons other others =>
      obtain ⟨column, hle, hlt, hlines⟩ := announces_nameLines (List.cons_ne_nil other others) hnames.2 hindicator
        ((Layout.of line).opening.length + 2)
      rw [blockHeader_values_announced hkey name (List.cons_ne_nil _ _), hblock]
      refine ⟨column, by omega, ?_, .behind (hnames.1.keyLine hopening hremark) hlines⟩
      simp only [List.length_cons] at hlt ⊢
      omega

theorem KeyLine.isQuiet (h : KeyLine line) (hline : '\n' ∉ line) : IsQuiet P line :=
  .of_not_opensFlow hline h.opensFlow

/-- A block scalar behind the lines that announce it. -/
theorem Announces.tidy {indicator : List Char} {column : Nat} {lines body : List (List Char)}
    (h : Announces indicator column lines) (hindicator : isBlockIndicator indicator = true)
    (hlines : ∀ line ∈ lines, '\n' ∉ line) (hbody : ∀ line ∈ body, belongs column false line = true)
    (hsingle : ∀ line ∈ body, '\n' ∉ line) : Tidy (IsQuiet P) (lines ++ body) := by
  induction h with
  | @last line hvalue howner =>
    have hquiet : IsQuiet P line :=
      .of_not_opensFlow (by simpa using hlines) (by rw [hvalue, opensFlow_of_isBlockIndicator hindicator])
    have htidy := Tidy.scalar hquiet (by rw [hvalue, hindicator]) (by rwa [howner]) hsingle .nil
    rwa [List.append_nil] at htidy
  | behind hfirst _ ih =>
    rw [List.forall_mem_cons] at hlines
    exact .line (hfirst.isQuiet hlines.1) (ih hlines.2)

theorem not_mem_names (hnames : ∀ name ∈ names, IsName name) {c : Char} (hc : isNameChar c = false) :
    ∀ name ∈ names, c ∉ name.toList := fun name hname => (hnames name hname).not_mem hc

theorem isQuiet_of_mem_blockHeader (hvalue : (Layout.of line).value ≠ []) (hline : '\n' ∉ line)
    (hne : names ≠ []) (hnames : ∀ name ∈ names, IsName name) :
    ∀ header ∈ blockHeader (Layout.of line) names none, IsQuiet P header := by
  intro header hheader
  have hsingle := not_mem_blockHeader (by decide) (by decide) ((Layout.text_of line).symm ▸ hline)
    (not_mem_names hnames rfl) (by simp) header hheader
  exact (keyLine_of_mem_blockHeader hvalue hne hnames header hheader).isQuiet hsingle

theorem tidy_blockHeader (hvalue : (Layout.of line).value ≠ []) (hline : '\n' ∉ line) (hne : names ≠ [])
    (hnames : ∀ name ∈ names, IsName name) {indicator : List Char} (hindicator : isBlockIndicator indicator = true)
    {body : List (List Char)}
    (hbody : ∀ owner < blockColumn (Layout.of line) names, ∀ other ∈ body, belongs owner false other = true)
    (hsingle : ∀ other ∈ body, '\n' ∉ other) :
    Tidy (IsQuiet P) (blockHeader (Layout.of line) names (some indicator) ++ body) := by
  obtain ⟨column, -, hlt, hlines⟩ := announces_blockHeader hvalue hne hnames hindicator
  have hmark : '\n' ∉ indicator := fun hmem => ne_of_mem_indicator hindicator hmem rfl rfl rfl
  exact hlines.tidy hindicator (not_mem_blockHeader (by decide) (by decide) ((Layout.text_of line).symm ▸ hline)
    (not_mem_names hnames rfl) (by simpa using hmark)) (hbody column hlt) hsingle

end Headers

end CloudTemplate.Shorthand
