import CloudTemplate.Proofs.Shorthand.BlockPrint
import CloudTemplate.Proofs.Shorthand.Headers
/-! Normalizing the print of a block with tags gives its print with keys. -/
namespace CloudTemplate.Shorthand

theorem splitKey_letters (key : Letters) {rest : List Char} (h : endsKey rest = true) :
    splitKey (key.text ++ ':' :: rest) = some (key.text, rest) := by
  obtain ⟨c, cs, hcs, hc⟩ := key.text_eq_cons
  have htame := isTame_of_isAlphanum hc
  have hquiet : ∀ d ∈ key.text, isQuiet d = true := by
    intro d hd
    have hsharp : d ≠ '#' := ne_of_isTame (key.isTame d hd) rfl
    have hcolon : d ≠ ':' := ne_of_isTame (key.isTame d hd) rfl
    have hquote : d ≠ '"' := ne_of_isTame (key.isTame d hd) rfl
    simp [isQuiet, hsharp, hcolon, hquote]
  have hstart : ['!', '[', '\x7b', '#', '|', '>'].contains c = false := by
    refine Bool.eq_false_iff.2 fun hmem => ?_
    simp only [List.contains_cons, List.contains_nil, Bool.or_false, Bool.or_eq_true, beq_iff_eq] at hmem
    obtain rfl | rfl | rfl | rfl | rfl | rfl := hmem <;> contradiction
  have hsplit := splitKeyFrom_quiet hquiet h none
  rw [hcs, List.cons_append] at hsplit ⊢
  rw [splitKey, if_neg (by simpa using hstart), hsplit]

theorem takeOpening_letters (letters : Letters) (rest : List Char) : takeOpening (letters.text ++ rest) = [] := by
  obtain ⟨c, cs, hcs, hc⟩ := letters.text_eq_cons
  have hspace : c ≠ ' ' := by rintro rfl; contradiction
  have hdash : c ≠ '-' := by rintro rfl; contradiction
  rw [hcs, List.cons_append, takeOpening_cons hspace hdash]

theorem layout_key {lead : List Char} (hlead : Opening lead) (key : Letters) {value : List Char}
    (htame : ∀ c ∈ value, isTame c = true) (hstart : value.head? ≠ some ' ') (hend : Text.trimEnd value = value) :
    Layout.of (lead ++ key.text ++ [':'] ++ ' ' :: value) = ⟨lead, some (key.text, [' ']), value, []⟩ := by
  have h := Layout.of_key hlead [' '] value (fun _ h => splitKey_letters key h)
    (fun _ => takeOpening_letters key _) (List.forall_mem_singleton.2 rfl) rfl hstart (not_mem_of_isTame htame rfl) hend
  simpa using h

theorem layout_bareKey {lead : List Char} (hlead : Opening lead) (key : Letters) :
    Layout.of (lead ++ key.text ++ [':']) = ⟨lead, some (key.text, []), [], []⟩ :=
  Layout.of_key hlead [] [] (fun _ h => splitKey_letters key h) (fun _ => takeOpening_letters key _) (by simp) rfl (by simp) (by simp) rfl

theorem layout_value {lead : List Char} (hlead : Opening lead) {c : Char} {cs : List Char}
    (htame : ∀ d ∈ c :: cs, isTame d = true) (hspace : c ≠ ' ') (hend : Text.trimEnd (c :: cs) = c :: cs) :
    Layout.of (lead ++ c :: cs) = ⟨lead, none, c :: cs, []⟩ := by
  have hdash : c ≠ '-' := ne_of_isTame (htame c List.mem_cons_self) rfl
  have hkey : splitKey (c :: cs) = none := by
    rw [splitKey]
    split
    · rfl
    · exact splitKeyFrom_eq_none (not_mem_of_isTame htame rfl) .outside none
  exact Layout.of_value hlead hspace hdash hkey (not_mem_of_isTame htame rfl) hend

theorem head?_shortWord (word : Word) (calls : List Intrinsic) : (shortWord word calls).head? ≠ some ' ' := by
  cases calls with
  | nil =>
    obtain ⟨c, cs, hcs, hc⟩ := word.text_eq_cons
    have hspace : c ≠ ' ' := by rintro rfl; contradiction
    simpa [shortWord, hcs] using hspace
  | cons f calls => simp [shortWord]

theorem nameLines_longName (column : Nat) (calls : List Intrinsic) :
    nameLines column (calls.map Intrinsic.longName) = chainKeys (Text.spaces column) column calls := by
  induction calls generalizing column with
  | nil => rfl
  | cons f calls ih => rw [List.map_cons, nameLines, ih, chainKeys]

/-- A line with a word for its value is a line still, with the word written out behind its calls. -/
theorem step_word {text : List Char} {layout : Layout} (hlayout : Layout.of text = layout) (word : Word)
    (calls : List Intrinsic) (hvalue : layout.value = shortWord word calls) (htrailing : layout.trailing = [])
    (number : Nat) (queue : List SourceLine) :
    step .standard ⟨number, text⟩ queue = .ok ⟨[layout.lead ++ longWord word calls], queue⟩ := by
  have htame : ∀ c ∈ layout.value, isTame c = true := fun c hc => isTame_of_mem_shortWord (hvalue ▸ hc)
  cases calls with
  | nil =>
    have hexpand : expandValue layout.value = .ok .unchanged := by rw [hvalue]; exact expandValue_word word
    rw [step_of_isTame hlayout htame hexpand, place, Layout.text, hvalue, htrailing, List.append_nil]
    rfl
  | cons f calls =>
    have hexpand : expandValue layout.value = .ok (.inline (longCalls word (f :: calls))) := by
      rw [hvalue, expandValue_shortWord]
    rw [step_of_isTame hlayout htame hexpand, place, htrailing, List.append_nil]
    rfl

/-- A line with a key and no value stays. -/
theorem step_noValue {text : List Char} {layout : Layout} (hlayout : Layout.of text = layout)
    (hvalue : layout.value = []) (number : Nat) (queue : List SourceLine) :
    step .standard ⟨number, text⟩ queue = .ok ⟨[text], queue⟩ := by
  have htext : layout.text = text := hlayout ▸ Layout.text_of text
  have hexpand : expandValue layout.value = .ok .unchanged := by rw [hvalue]; rfl
  rw [step_of_isTame hlayout (by simp [hvalue]) hexpand, place, htext]

/-- A line with a chain of calls for its value takes the block that belongs to it, and moves it to its
new column. -/
theorem step_chainTags {line : SourceLine} {layout : Layout} {f : Intrinsic} {calls : List Intrinsic}
    (hlayout : Layout.of line.text = layout) (hvalue : layout.value = chainTags (f :: calls))
    {body rest : List SourceLine} (hne : body ≠ [])
    (hbody : bodyOf layout.ownerColumn layout.keyColumn.isSome (body ++ rest) = body) :
    step .standard line (body ++ rest) =
      .ok ⟨blockHeader layout ((f :: calls).map Intrinsic.longName) none,
        reindent (blockColumn layout ((f :: calls).map Intrinsic.longName)) body ++ rest⟩ := by
  have htame : ∀ c ∈ layout.value, isTame c = true := fun c hc => isTame_of_mem_chainTags (hvalue ▸ hc)
  have hexpand : expandValue layout.value = .ok (.block ((f :: calls).map Intrinsic.longName) none) := by
    rw [hvalue, expandValue_chainTags]
  have hempty : body.isEmpty = false := by simpa using hne
  have henabled : Options.standard.isEnabled .multiline = true := rfl
  rw [step_of_isTame hlayout htame hexpand, place]
  simp only [henabled, hbody, hempty, List.drop_left, Option.isSome_none, Bool.not_true, Bool.false_eq_true, if_false]

def Becomes (owner : Nat) (underKey : Bool) (before after : List (List Char)) : Prop :=
  ∀ queue rest : List SourceLine, queue.map SourceLine.text = before →
    (∀ line ∈ rest.head?, belongs owner underKey line.text = false) →
    normalizeLines .standard (queue ++ rest) = (normalizeLines .standard rest).map (after ++ ·)

namespace Becomes

variable {owner : Nat} {underKey : Bool} {before after : List (List Char)}

theorem mono {inner : Nat} {innerKey : Bool} (h : Becomes inner innerKey before after)
    (hbelongs : ∀ line, belongs owner underKey line = false → belongs inner innerKey line = false) :
    Becomes owner underKey before after :=
  fun queue rest hqueue hrest => h queue rest hqueue fun line hline => hbelongs line.text (hrest line hline)

theorem map_map_append (result : Except LineFault (List (List Char))) (first second : List (List Char)) :
    (result.map (second ++ ·)).map (first ++ ·) = result.map ((first ++ second) ++ ·) := by
  cases result with
  | error fault => rfl
  | ok lines => simp [Except.map]

theorem append {before' after' : List (List Char)} {line : List Char} {lines : List (List Char)}
    (h : Becomes owner underKey before after) (hne : before' = line :: lines)
    (hline : belongs owner underKey line = false) (h' : Becomes owner underKey before' after') :
    Becomes owner underKey (before ++ before') (after ++ after') := by
  intro queue rest hqueue hrest
  obtain ⟨front, back, rfl, hfront, hback⟩ := List.map_eq_append_iff.1 hqueue
  have hhead : ∀ next ∈ (back ++ rest).head?, belongs owner underKey next.text = false := by
    rw [hne] at hback
    obtain ⟨next, others, rfl, rfl, -⟩ := List.map_eq_cons_iff.1 hback
    intro other hother
    cases hother
    exact hline
  rw [List.append_assoc, h front (back ++ rest) hfront hhead, h' back rest hback hrest, map_map_append]

/-- A line that a step puts out by itself. -/
theorem cons {line line' : List Char}
    (hstep : ∀ number queue, step .standard ⟨number, line⟩ queue = .ok ⟨[line'], queue⟩)
    (h : Becomes owner underKey before after) : Becomes owner underKey (line :: before) (line' :: after) := by
  intro queue rest hqueue hrest
  obtain ⟨first, others, rfl, rfl, hothers⟩ := List.map_eq_cons_iff.1 hqueue
  rw [List.cons_append, normalizeLines_of_step (hstep first.number _), h others rest hothers hrest, map_map_append]
  rfl

theorem nil : Becomes owner underKey [] [] := by
  intro queue rest hqueue _
  rw [List.map_eq_nil_iff.1 hqueue]
  cases hresult : normalizeLines .standard rest <;> simp [hresult, Except.map]

end Becomes

namespace Block

theorem short_spaces (block : Block) (column : Nat) :
    block.short (Text.spaces column) column = (block.short [] 0).map (Text.spaces column ++ ·) := by
  rw [block.map_short, List.append_nil, Nat.add_zero]

theorem bodyOf_short (block : Block) {owner column : Nat} (h : owner < column) {underKey : Bool}
    {body rest : List SourceLine} (hbody : body.map SourceLine.text = block.short (Text.spaces column) column)
    (hrest : ∀ line ∈ rest.head?, belongs owner underKey line.text = false) :
    bodyOf owner underKey (body ++ rest) = body := by
  have hmem : ∀ line ∈ body, line.text ∈ block.short (Text.spaces column) column :=
    fun line hline => hbody ▸ List.mem_map_of_mem hline
  refine bodyOf_append (fun line hline => ?_) (fun line hline => ?_) hrest
  · have hline := hmem line hline
    rw [block.short_spaces] at hline
    obtain ⟨text, -, heq⟩ := List.mem_map.1 hline
    rw [← heq]
    exact belongs_spaces h underKey text
  · exact ((block.prints_short _ column).filled_of_mem _ (hmem line hline)).notBlank

theorem map_text_reindent (block : Block) {column : Nat} (target : Nat) {body : List SourceLine}
    (hbody : body.map SourceLine.text = block.short (Text.spaces column) column) :
    (reindent target body).map SourceLine.text = block.short (Text.spaces target) target := by
  have hprints : Prints (Text.spaces 0) (block.short [] 0) := block.prints_short [] 0
  rw [block.short_spaces] at hbody ⊢
  refine Shorthand.map_text_reindent target hbody hprints.filled_of_mem ?_
  generalize block.short [] 0 = lines at hprints
  cases hprints with
  | mk hblank => exact ⟨_, List.mem_cons_self, indentation_cons hblank _⟩

theorem short_ne_nil (block : Block) (lead : List Char) (column : Nat) : block.short lead column ≠ [] := by
  have hprints := block.prints_short lead column
  generalize block.short lead column = lines at hprints
  cases hprints
  simp

end Block

/-- A chain of calls on a line becomes lines of keys, once the block below it is rewritten in its new
place. -/
theorem Becomes.chainTags {owner column target : Nat} {underKey : Bool} {line : List Char} {layout : Layout}
    {f : Intrinsic} {calls : List Intrinsic} {block : Block} {header : List (List Char)}
    (hlayout : Layout.of line = layout) (hvalue : layout.value = chainTags (f :: calls))
    (howner : layout.ownerColumn = owner) (hunderKey : layout.keyColumn.isSome = underKey)
    (hheader : blockHeader layout ((f :: calls).map Intrinsic.longName) none = header)
    (htarget : blockColumn layout ((f :: calls).map Intrinsic.longName) = target)
    (hcolumn : owner < column) (hinner : owner < target)
    (h : Becomes target true (block.short (Text.spaces target) target) (block.long (Text.spaces target) target)) :
    Becomes owner underKey (line :: block.short (Text.spaces column) column)
      (header ++ block.long (Text.spaces target) target) := by
  intro queue rest hqueue hrest
  obtain ⟨first, body, rfl, hfirst, hbody⟩ := List.map_eq_cons_iff.1 hqueue
  have hne : body ≠ [] := by
    intro heq
    subst heq
    exact block.short_ne_nil _ _ hbody.symm
  have hstep := step_chainTags (hfirst ▸ hlayout) hvalue hne
    (by rw [howner, hunderKey]; exact block.bodyOf_short hcolumn hbody hrest)
  rw [hheader, htarget] at hstep
  have hmoved := block.map_text_reindent target hbody
  have hinner : ∀ next ∈ rest.head?, belongs target true next.text = false :=
    fun next hnext => belongs_of_lt hinner (hrest next hnext) true
  rw [List.cons_append, normalizeLines_of_step hstep, h _ rest hmoved hinner, map_map_append]

theorem dashColumn_append_dash (lead : List Char) (value trailing : List Char) :
    (Layout.mk (lead ++ ['-', ' ']) none value trailing).ownerColumn = lead.length := by
  have hbehind : (lead ++ ['-', ' ']).reverse.dropWhile (· != '-') = '-' :: lead.reverse := by
    simp
  rw [Layout.ownerColumn]
  simp only [Layout.keyColumn, Layout.dashColumn, hbehind]
  simp

theorem belongs_next_key {c : Char} (hblank : Text.isBlank c = false) (hdash : c ≠ '-') (column : Nat)
    (cs : List Char) : belongs column true (Text.spaces column ++ c :: cs) = false := by
  have hmarker : ['-', ' '].isPrefixOf (c :: cs) = false := by
    refine Bool.eq_false_iff.2 fun h => ?_
    exact hdash (List.cons_prefix_cons.1 (List.isPrefixOf_iff_prefix.1 h)).1.symm
  have halone : (Text.trimEnd (c :: cs) == ['-']) = false := by
    rw [beq_eq_false_iff_ne]
    intro h
    have hrest := Text.trimEnd_append_rest (c :: cs)
    rw [h] at hrest
    exact hdash (List.cons.inj hrest).1.symm
  simp [belongs, indentation_spaces, indentation_cons hblank, trimStart_spaces,
    trimStart_cons hblank, hmarker, halone, Text.isBlankText, hblank]

theorem belongs_next_item {c : Char} (hblank : Text.isBlank c = false) (column : Nat) (cs : List Char) :
    belongs column false (Text.spaces column ++ c :: cs) = false := by
  simp [belongs, indentation_spaces, indentation_cons hblank, Text.isBlankText, hblank]

/-- The first line of a mapping starts with a key. -/
theorem BlockEntries.short_eq_cons (entries : BlockEntries) (lead : List Char) (column : Nat) :
    ∃ (key : Letters) (cs : List Char) (lines : List (List Char)),
      entries.short lead column = (lead ++ (key.text ++ cs)) :: lines := by
  have hvalue (key : Letters) (value : BlockValue) : ∃ cs lines,
      value.shortUnderKey (lead ++ key.text ++ [':']) column = (lead ++ (key.text ++ cs)) :: lines := by
    cases value with
    | word calls word => exact ⟨':' :: ' ' :: shortWord word calls, [], by simp [BlockValue.shortUnderKey]⟩
    | block calls block =>
      cases calls with
      | nil => exact ⟨[':'], _, by rw [BlockValue.shortUnderKey, List.append_assoc]⟩
      | cons f calls =>
        exact ⟨':' :: ' ' :: Shorthand.chainTags (f :: calls), _, by simp [BlockValue.shortUnderKey]; rfl⟩
  cases entries with
  | last key value =>
    obtain ⟨cs, lines, h⟩ := hvalue key value
    exact ⟨key, cs, lines, h⟩
  | more key value rest =>
    obtain ⟨cs, lines, h⟩ := hvalue key value
    exact ⟨key, cs, lines ++ rest.short (Text.spaces column) column, by rw [BlockEntries.short, h]; rfl⟩

mutual

theorem Block.becomes (block : Block) {lead : List Char} {column : Nat} (hlead : Opening lead)
    (hcolumn : lead.length = column) :
    Becomes column true (block.short lead column) (block.long lead column) := by
  match block with
  | .mapping entries => exact entries.becomes hlead hcolumn
  | .sequence items => exact (items.becomes hlead hcolumn).mono fun _ h => belongs_of_underKey h

theorem BlockEntries.becomes (entries : BlockEntries) {lead : List Char} {column : Nat} (hlead : Opening lead)
    (hcolumn : lead.length = column) :
    Becomes column true (entries.short lead column) (entries.long lead column) := by
  match entries with
  | .last key value => exact value.becomes_underKey key hlead hcolumn
  | .more key value rest =>
    have hspaces : (Text.spaces column).length = column := List.length_replicate
    obtain ⟨next, cs, lines, hnext⟩ := rest.short_eq_cons (Text.spaces column) column
    obtain ⟨c, cs', hcs, hc⟩ := next.text_eq_cons
    have hdash : c ≠ '-' := by rintro rfl; contradiction
    have hline : belongs column true (Text.spaces column ++ (next.text ++ cs)) = false := by
      rw [hcs, List.cons_append]
      exact belongs_next_key (isBlank_of_isAlphanum hc) hdash column _
    exact (value.becomes_underKey key hlead hcolumn).append hnext hline (rest.becomes (.spaces column) hspaces)

theorem BlockItems.becomes (items : BlockItems) {lead : List Char} {column : Nat} (hlead : Opening lead)
    (hcolumn : lead.length = column) :
    Becomes column false (items.short lead column) (items.long lead column) := by
  match items with
  | .last value => exact value.becomes_item hlead hcolumn
  | .more value rest =>
    have hspaces : (Text.spaces column).length = column := List.length_replicate
    have hbecomes := rest.becomes (.spaces column) hspaces
    have hprints := rest.prints_short (Text.spaces column) column
    rw [BlockItems.short, BlockItems.long]
    generalize rest.short (Text.spaces column) column = lines at hprints hbecomes
    cases hprints with
    | mk hblank =>
      exact (value.becomes_item hlead hcolumn).append rfl (belongs_next_item hblank column _) hbecomes

theorem BlockValue.becomes_underKey (value : BlockValue) (key : Letters) {lead : List Char} {column : Nat}
    (hlead : Opening lead) (hcolumn : lead.length = column) :
    Becomes column true (value.shortUnderKey (lead ++ key.text ++ [':']) column)
      (value.longUnderKey (lead ++ key.text ++ [':']) column) := by
  have hspaces (n : Nat) : (Text.spaces n).length = n := List.length_replicate
  match value with
  | .word calls word =>
    have hlayout := layout_key hlead key (fun _ => isTame_of_mem_shortWord) (head?_shortWord word calls)
      (trimEnd_shortWord word calls)
    refine .cons (fun number queue => ?_) .nil
    simpa [Layout.lead] using step_word hlayout word calls rfl rfl number queue
  | .block [] block =>
    rw [BlockValue.shortUnderKey, BlockValue.longUnderKey]
    exact .cons (step_noValue (layout_bareKey hlead key) rfl)
      ((block.becomes (.spaces _) (hspaces _)).mono fun _ h => belongs_of_lt (by omega) h true)
  | .block (f :: calls) block =>
    have hstart : (chainTags (f :: calls)).head? ≠ some ' ' := by
      obtain ⟨cs, hcs⟩ := chainTags_cons f calls
      simp [hcs]
    have hlayout := layout_key hlead key (fun _ => isTame_of_mem_chainTags) hstart (trimEnd_chainTags (f :: calls))
    have hinner := block.becomes (.spaces (column + 2 * (f :: calls).length + 2)) (hspaces _)
    rw [BlockValue.shortUnderKey, BlockValue.longUnderKey]
    · refine .chainTags hlayout rfl hcolumn rfl ?_ ?_ (by omega) (by omega) hinner
      · rw [blockHeader_key rfl (List.forall_mem_singleton.2 rfl), nameLines_longName, hcolumn, List.append_assoc]
      · simp only [blockColumn, Layout.keyColumn, hcolumn, List.length_map, Option.map_some]
        omega
    · simp

theorem BlockValue.becomes_item (value : BlockValue) {lead : List Char} {column : Nat}
    (hlead : Opening lead) (hcolumn : lead.length = column) :
    Becomes column false (value.shortItem (lead ++ ['-', ' ']) column)
      (value.longItem (lead ++ ['-', ' ']) column) := by
  have hspaces (n : Nat) : (Text.spaces n).length = n := List.length_replicate
  have hdash : Opening (lead ++ ['-', ' ']) := hlead.append (.dash .nil)
  match value with
  | .word calls word =>
    obtain ⟨c, cs, hcs⟩ := List.exists_cons_of_ne_nil (shortWord_ne_nil word calls)
    have htame : ∀ d ∈ c :: cs, isTame d = true := fun d hd => isTame_of_mem_shortWord (hcs ▸ hd)
    have hspace : c ≠ ' ' := by simpa [hcs] using head?_shortWord word calls
    have hlayout := layout_value hdash htame hspace (hcs ▸ trimEnd_shortWord word calls)
    rw [← hcs] at hlayout
    refine .cons (fun number queue => ?_) .nil
    simpa [Layout.lead] using step_word hlayout word calls rfl rfl number queue
  | .block [] block =>
    exact (block.becomes hdash (by simp [hcolumn])).mono fun _ h => belongs_of_lt (by omega) h true
  | .block (f :: calls) block =>
    obtain ⟨cs, hcs⟩ := chainTags_cons f calls
    have htame : ∀ d ∈ '!' :: cs, isTame d = true := fun d hd => isTame_of_mem_chainTags (hcs ▸ hd)
    have hlayout := layout_value hdash htame (by decide) (hcs ▸ trimEnd_chainTags (f :: calls))
    rw [← hcs] at hlayout
    have hinner := block.becomes (.spaces (column + 2 * (f :: calls).length + 2)) (hspaces _)
    rw [BlockValue.shortItem, BlockValue.longItem]
    · refine .chainTags hlayout rfl ?_ rfl ?_ ?_ (by omega) (by omega) hinner
      · rw [dashColumn_append_dash, hcolumn]
      · simp [blockHeader_value, Layout.remark, Text.isBlankText, nameLines_longName, hcolumn, chainKeys]
      · simp only [blockColumn, Layout.keyColumn, Layout.lead, hcolumn, List.length_map, Option.map_none, List.append_nil, List.length_append, List.length_cons, List.length_nil]
        omega
    · simp
    · simp

end

namespace BlockEntries

def shortText (root : BlockEntries) : List Char := joinLines (root.short [] 0)

def longText (root : BlockEntries) : List Char := joinLines (root.long [] 0)

theorem isPrinted_of_mem_short {root : BlockEntries} :
    ∀ line ∈ root.short [] 0, ∀ c ∈ line, isPrinted c = true :=
  (root.prints_short [] 0).isPrinted_of_mem (by simp)

theorem splitLines_shortText (root : BlockEntries) : splitLines root.shortText = root.short [] 0 := by
  obtain ⟨key, cs, lines, hlines⟩ := root.short_eq_cons [] 0
  refine splitLines_joinLines (by simp [hlines]) fun line hline hbreak => ?_
  have hprinted := isPrinted_of_mem_short line hline _ hbreak
  contradiction

theorem doubleQuotes_shortText (root : BlockEntries) : doubleQuotes root.shortText = root.shortText := by
  have hquote : ∀ c ∈ root.shortText, c ≠ '\'' := by
    rintro c hc rfl
    obtain hbreak | ⟨line, hline, hc⟩ := mem_joinLines hc
    · contradiction
    · have hprinted := isPrinted_of_mem_short line hline _ hc
      contradiction
  calc doubleQuotes root.shortText
      = root.shortText.map id := List.map_congr_left fun c hc => if_neg (hquote c hc)
    _ = root.shortText := List.map_id _

theorem normalizeText_shortText (root : BlockEntries) : normalizeText .standard root.shortText = .ok root.longText := by
  have hlines : normalizeLines .standard (numberLines 1 (root.short [] 0)) = .ok (root.long [] 0) := by
    have h := root.becomes .nil rfl _ [] (map_text_numberLines 1 (root.short [] 0)) (by simp)
    rw [List.append_nil] at h
    rw [h, normalizeLines_nil]
    simp [Except.map]
  rw [normalizeText, root.doubleQuotes_shortText, root.splitLines_shortText, hlines]
  rfl

/-- Normalization turns the calls of a document from tags into keys, at any depth. -/
theorem normalize_shortText (root : BlockEntries) :
    normalize .standard (String.ofList root.shortText) = .ok (String.ofList root.longText) := by
  rw [normalize, String.toList_ofList, normalizeText_shortText]

end BlockEntries

end CloudTemplate.Shorthand
