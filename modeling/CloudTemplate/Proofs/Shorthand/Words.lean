import CloudTemplate.Proofs.Shorthand.BlockTree
import CloudTemplate.Proofs.Shorthand.FlowText
import CloudTemplate.Proofs.Shorthand.LayoutParts
import CloudTemplate.Proofs.Shorthand.Lines
/-! Words behind chains of calls, and chains of calls that end their line: what a step makes of a line
with one of them for its value. -/
namespace CloudTemplate.Shorthand

def isTame (c : Char) : Bool := c.isAlphanum || c == '!' || c == ' '

theorem isAlphanum_of_isAlpha {c : Char} (h : c.isAlpha = true) : c.isAlphanum = true := by
  simp [Char.isAlphanum, h]

theorem isBlank_of_isAlphanum {c : Char} (h : c.isAlphanum = true) : Text.isBlank c = false := by
  have hwithin (low high : Char) (hlow : 48 ≤ low.toNat) (hhigh : high.toNat ≤ 122)
      (h : low.val ≤ c.val ∧ c.val ≤ high.val) : 48 ≤ c.toNat ∧ c.toNat ≤ 122 :=
    ⟨hlow.trans (UInt32.le_iff_toNat_le.1 h.1), (UInt32.le_iff_toNat_le.1 h.2).trans hhigh⟩
  have hbounds : 48 ≤ c.toNat ∧ c.toNat ≤ 122 := by
    obtain halpha | hdigit := Bool.or_eq_true_iff.1 h
    · obtain hupper | hlower := Bool.or_eq_true_iff.1 halpha
      · exact hwithin 'A' 'Z' (by decide) (by decide) (of_decide_eq_true hupper)
      · exact hwithin 'a' 'z' (by decide) (by decide) ((Bool.and_eq_true_iff.1 hlower).imp of_decide_eq_true of_decide_eq_true)
    · exact hwithin '0' '9' (by decide) (by decide) ((Bool.and_eq_true_iff.1 hdigit).imp of_decide_eq_true of_decide_eq_true)
  simp only [Text.isBlank, Bool.or_eq_false_iff, Bool.and_eq_false_iff, decide_eq_false_iff_not,
    beq_eq_false_iff_ne]
  omega

theorem isTame_of_isAlphanum {c : Char} (h : c.isAlphanum = true) : isTame c = true := by
  simp [isTame, h]

theorem ne_of_isTame {c d : Char} (h : isTame c = true) (hd : isTame d = false) : c ≠ d := by
  intro heq
  subst heq
  rw [h] at hd
  contradiction

theorem not_mem_of_isTame {cs : List Char} (h : ∀ c ∈ cs, isTame c = true) {d : Char}
    (hd : isTame d = false) : d ∉ cs := fun hmem => ne_of_isTame (h d hmem) hd rfl

theorem bracketWeight_of_isTame {c : Char} (h : isTame c = true) : bracketWeight c = 0 := by
  have hopen : ¬ (c = '[' ∨ c = '\x7b') := by
    rintro (rfl | rfl) <;> contradiction
  have hclose : ¬ (c = ']' ∨ c = '\x7d') := by
    rintro (rfl | rfl) <;> contradiction
  rw [bracketWeight, if_neg hopen, if_neg hclose]

theorem splitColonSpace_eq_none {cs : List Char} (h : ':' ∉ cs) : splitColonSpace cs = none := by
  induction cs with
  | nil => rfl
  | cons c cs ih =>
    obtain ⟨hc, hcs⟩ := List.ne_and_not_mem_of_not_mem_cons h
    rw [splitColonSpace, ih hcs]
    · rfl
    · rintro cs' rfl
      exact absurd rfl hc

theorem splitLongForm_eq_none {cs : List Char} (h : ':' ∉ cs) : splitLongForm cs = none := by
  have hlast : cs.getLast? ≠ some ':' := fun hlast => h (List.mem_of_getLast? hlast)
  simp [splitLongForm, splitColonSpace_eq_none h, hlast]

theorem isBlockIndicator_eq_false {cs : List Char} (h : ∀ c ∈ cs, isTame c = true) :
    isBlockIndicator cs = false := by
  cases cs with
  | nil => rfl
  | cons c cs =>
    have hpipe : c ≠ '|' := ne_of_isTame (h c List.mem_cons_self) rfl
    have hangle : c ≠ '>' := ne_of_isTame (h c List.mem_cons_self) rfl
    simp [isBlockIndicator, hpipe, hangle]

theorem Form.of_isTame (options : Options) {layout : Layout}
    (h : ∀ c ∈ layout.value, isTame c = true) : Form.of options layout = .other := by
  have hbalance : bracketBalance layout.value = 0 :=
    balanceFrom_eq_zero (fun c hc => bracketWeight_of_isTame (h c hc)) .outside
  have hlong : splitLongForm layout.value = none := splitLongForm_eq_none (not_mem_of_isTame h rfl)
  simp [Form.of, isBlockIndicator_eq_false h, hlong, hbalance]

theorem step_of_isTame {options : Options} {line : SourceLine} {queue : List SourceLine} {layout : Layout}
    {expansion : Expansion} (hlayout : Layout.of line.text = layout)
    (h : ∀ c ∈ layout.value, isTame c = true) (hexpand : expandValue layout.value = .ok expansion) :
    step options line queue = place options line.number layout expansion queue := by
  simp [step, settle, hlayout, Form.of_isTame options h, hexpand, numbered, bind, Except.bind]

theorem Letters.isAlphanum (letters : Letters) : ∀ c ∈ letters.text, c.isAlphanum = true :=
  fun c hc => isAlphanum_of_isAlpha (letters.isAlpha c hc)

theorem Letters.isTame (letters : Letters) : ∀ c ∈ letters.text, isTame c = true :=
  fun c hc => isTame_of_isAlphanum (letters.isAlphanum c hc)

theorem Letters.isBlank (letters : Letters) : ∀ c ∈ letters.text, Text.isBlank c = false :=
  fun c hc => isBlank_of_isAlphanum (letters.isAlphanum c hc)

theorem Letters.text_eq_cons (letters : Letters) :
    ∃ c cs, letters.text = c :: cs ∧ c.isAlphanum = true := by
  obtain ⟨c, cs, hcs⟩ := List.exists_cons_of_ne_nil letters.nonempty
  exact ⟨c, cs, hcs, letters.isAlphanum c (by simp [hcs])⟩

theorem staysKey_of_forall {cs : List Char} (h : ∀ c ∈ cs, c ≠ ',' ∧ c ≠ '\x7d' ∧ c ≠ ':') : staysKey cs = true := by
  induction cs with
  | nil => rfl
  | cons c cs ih =>
    rw [List.forall_mem_cons] at h
    obtain ⟨⟨hcomma, hbrace, hcolon⟩, hcs⟩ := h
    rw [staysKey.eq_def]
    simp [hcomma, hbrace, hcolon, ih hcs]

theorem Letters.ne_of_mem_append (key : Letters) (gap : Spacing) :
    ∀ c ∈ key.text ++ gap.text, c ≠ ',' ∧ c ≠ '\x7d' ∧ c ≠ ':' := by
  intro c hc
  cases List.mem_append.1 hc with
  | inl hc =>
    have htame := key.isTame c hc
    exact ⟨ne_of_isTame htame rfl, ne_of_isTame htame rfl, ne_of_isTame htame rfl⟩
  | inr hc =>
    have hgap := gap.isGap c hc
    refine ⟨?_, ?_, ?_⟩ <;> rintro rfl <;> contradiction

theorem Letters.keyText (key : Letters) (gap : Spacing) : KeyText key.text gap.text := by
  refine .plain gap ?_ (Text.trimEnd_eq_self key.isBlank) (staysKey_of_forall (key.ne_of_mem_append gap)) fun hmem => ?_
  · obtain ⟨c, cs, hcs, hc⟩ := key.text_eq_cons
    have hquote : c ≠ '"' := ne_of_isTame (isTame_of_isAlphanum hc) rfl
    simp [hcs, isGap_of_isAlphanum hc, hquote]
  · exact ne_of_isTame (key.isTame _ hmem) rfl rfl

theorem isTame_of_mem_shortWord {word : Word} {calls : List Intrinsic} {c : Char}
    (h : c ∈ shortWord word calls) : isTame c = true := by
  induction calls with
  | nil => exact word.isTame c h
  | cons f calls ih =>
    simp only [shortWord, List.cons_append, List.mem_cons, List.mem_append] at h
    obtain rfl | h | rfl | h := h
    · rfl
    · exact isTame_of_isAlphanum (isAlphanum_of_mem_tag h)
    · rfl
    · exact ih h

theorem isTame_of_mem_chainTags {calls : List Intrinsic} {c : Char} (h : c ∈ chainTags calls) :
    isTame c = true := by
  fun_induction chainTags calls with
  | case1 => contradiction
  | case2 f =>
    obtain rfl | h := List.mem_cons.1 h
    · rfl
    · exact isTame_of_isAlphanum (isAlphanum_of_mem_tag h)
  | case3 f calls _ ih =>
    simp only [List.cons_append, List.mem_cons, List.mem_append] at h
    obtain rfl | h | rfl | h := h
    · rfl
    · exact isTame_of_isAlphanum (isAlphanum_of_mem_tag h)
    · rfl
    · exact ih h

theorem shortWord_ne_nil (word : Word) (calls : List Intrinsic) : shortWord word calls ≠ [] := by
  cases calls with
  | nil => exact word.nonempty
  | cons f calls => simp [shortWord]

theorem trimEnd_shortWord (word : Word) (calls : List Intrinsic) :
    Text.trimEnd (shortWord word calls) = shortWord word calls := by
  induction calls with
  | nil => exact Text.trimEnd_eq_self word.isBlank
  | cons f calls ih =>
    have hfront : shortWord word (f :: calls) = ('!' :: f.tag.toList ++ [' ']) ++ shortWord word calls := by
      simp [shortWord]
    rw [hfront, Text.trimEnd_append (shortWord_ne_nil word calls) ih]

theorem chainTags_cons (f : Intrinsic) (calls : List Intrinsic) :
    ∃ cs, chainTags (f :: calls) = '!' :: cs := by
  cases calls with
  | nil => exact ⟨f.tag.toList, rfl⟩
  | cons g calls => exact ⟨f.tag.toList ++ ' ' :: chainTags (g :: calls), rfl⟩

theorem trimEnd_chainTags (calls : List Intrinsic) : Text.trimEnd (chainTags calls) = chainTags calls := by
  fun_induction chainTags calls with
  | case1 => rfl
  | case2 f =>
    refine Text.trimEnd_eq_self fun c hc => ?_
    obtain rfl | hc := List.mem_cons.1 hc
    · rfl
    · exact isBlank_of_isAlphanum (isAlphanum_of_mem_tag hc)
  | case3 f calls hne ih =>
    have hnil : chainTags calls ≠ [] := by
      cases calls with
      | nil => exact absurd rfl hne
      | cons g calls =>
        obtain ⟨cs, hcs⟩ := chainTags_cons g calls
        simp [hcs]
    have hfront : '!' :: f.tag.toList ++ ' ' :: chainTags calls =
        ('!' :: f.tag.toList ++ [' ']) ++ chainTags calls := by simp
    rw [hfront, Text.trimEnd_append hnil ih]

theorem quote_letters (letters : Letters) : quote letters.text = inQuotes letters.text := by
  have hkept : letters.text.flatMap (fun c => if c = '"' ∨ c = '\\' then ['\\', c] else [c]) = letters.text := by
    calc _ = letters.text.flatMap fun c => [c] := by
          refine List.flatMap_congr fun c hc => if_neg ?_
          have hquote : c ≠ '"' := ne_of_isTame (letters.isTame c hc) rfl
          have hbackslash : c ≠ '\\' := ne_of_isTame (letters.isTame c hc) rfl
          simp [hquote, hbackslash]
      _ = letters.text := by simp
  rw [quote, hkept]

theorem attributeArgument_letters (letters : Letters) :
    attributeArgument letters.text = inQuotes letters.text := by
  have hpoint : letters.text.idxOf? '.' = none :=
    List.idxOf?_eq_none_iff.2 (not_mem_of_isTame letters.isTame rfl)
  rw [attributeArgument, hpoint, quote_letters]

def Letters.scalar (letters : Letters) : Scalar where
  text := letters.text
  starts := by
    obtain ⟨c, cs, hcs, hc⟩ := letters.text_eq_cons
    have hmark : c ≠ '!' := by rintro rfl; contradiction
    have htame := isTame_of_isAlphanum hc
    have hbracket : c ≠ '[' := ne_of_isTame htame rfl
    have hbrace : c ≠ '\x7b' := ne_of_isTame htame rfl
    have hquote : c ≠ '"' := ne_of_isTame htame rfl
    simp [hcs, startsScalar, isBlank_of_isAlphanum hc, hmark, hbracket, hbrace, hquote]
  ends := Text.trimEnd_eq_self letters.isBlank
  unbroken c hc := by
    have hcomma : c ≠ ',' := ne_of_isTame (letters.isTame c hc) rfl
    have hbracket : c ≠ ']' := ne_of_isTame (letters.isTame c hc) rfl
    have hbrace : c ≠ '\x7d' := ne_of_isTame (letters.isTame c hc) rfl
    simp [endsPlain, hcomma, hbracket, hbrace]
  announcesNothing := isBlockIndicator_eq_false letters.isTame

def Word.scalar (word : Word) : Scalar := word.toLetters.scalar

def Word.node (word : Word) : List Intrinsic → Node
  | [] => .plain word.scalar
  | f :: calls => .call f oneSpace (List.cons_ne_nil _ _) (word.node calls)

theorem Word.source_node (word : Word) (calls : List Intrinsic) :
    (word.node calls).source = shortWord word calls := by
  induction calls with
  | nil => rfl
  | cons f calls ih => simp [Word.node, Node.source, shortWord, oneSpace, ih]

theorem Word.expanded_node (word : Word) (f : Intrinsic) (calls : List Intrinsic) :
    (word.node (f :: calls)).expanded = longCalls word (f :: calls) := by
  have hargument : (word.node calls).writtenArgument f (word.node calls).expanded = longCalls word calls := by
    induction calls generalizing f with
    | nil =>
      have hnumeric : isNumeric word.text = false := by simp [isNumeric, word.notNumber]
      have hattribute := attributeArgument_letters word.toLetters
      have hquote := quote_letters word.toLetters
      cases f <;> simpa [Word.node, Word.scalar, Letters.scalar, Node.writtenArgument, hnumeric, longCalls, inQuotes]
    | cons g calls ih =>
      rw [Word.node, longCalls, ← ih g]
      cases f <;> rfl
  rw [longCalls, ← hargument]
  rfl

/-- A word behind calls is written out as nested calls. -/
theorem expandValue_shortWord (word : Word) (f : Intrinsic) (calls : List Intrinsic) :
    expandValue (shortWord word (f :: calls)) = .ok (.inline (longCalls word (f :: calls))) := by
  obtain ⟨flow, hread, hfragment⟩ := (word.node (f :: calls)).flowAt_source .line
  rw [word.source_node, List.append_nil] at hread
  have hstructured : flow.fragment = .structured (longCalls word (f :: calls)) := by
    rw [hfragment, ← word.expanded_node f calls]
    rfl
  rw [expandValue_of_flowAt (by simp [shortWord]) rfl hread hstructured, List.append_nil]

theorem expandValue_word (word : Word) : expandValue word.text = .ok .unchanged := by
  have hmark : '!' ∉ word.text := by
    intro h
    have := word.isAlphanum '!' h
    contradiction
  have hmark : hasMark word.text = false := by simpa [hasMark] using hmark
  simp [expandValue, hmark]

theorem flowAt_chainTags (f : Intrinsic) (calls : List Intrinsic) :
    ∃ flow, flowAt false (chainTags (f :: calls)) = .ok (flow, []) ∧
      flow.fragment = .waiting ((f :: calls).map Intrinsic.longName) none := by
  induction calls generalizing f with
  | nil =>
    refine ⟨.opened f none, ?_, rfl⟩
    have hname : f.tag.toList.takeWhile Char.isAlphanum = f.tag.toList := by
      rw [List.takeWhile_eq_self_iff]
      exact fun c hc => isAlphanum_of_mem_tag hc
    have hafter : afterName f.tag.toList = [] := by
      rw [afterName, List.dropWhile_eq_nil_iff.2 fun c hc => isAlphanum_of_mem_tag hc]
      rfl
    have hhead : f.tag.toList.head? ≠ some '!' := by cases f <;> simp [Intrinsic.tag]
    rw [chainTags, flowAt_mark, tagAt_eq, if_neg hhead, hname, hafter, String.ofList_toList, ofTag?_tag]
    rfl
  | cons g calls ih =>
    obtain ⟨flow, hread, hfragment⟩ := ih g
    obtain ⟨cs, hcs⟩ := chainTags_cons g calls
    have htame : isBlockIndicator (chainTags (g :: calls)) = false :=
      isBlockIndicator_eq_false fun c hc => isTame_of_mem_chainTags hc
    have htag : tagAt false (f.tag.toList ++ (oneSpace.text ++ chainTags (g :: calls))) =
        mapRead (.call f) (flowAt false (chainTags (g :: calls))) :=
      tagAt_tag f false (List.cons_ne_nil _ _) (by rw [hcs, afterGap_cons rfl]) (by rw [hcs]; rfl) fun _ => htame
    refine ⟨.call f flow, ?_, ?_⟩
    · have htext : chainTags (f :: g :: calls) = '!' :: (f.tag.toList ++ (oneSpace.text ++ chainTags (g :: calls))) :=
        rfl
      rw [htext, flowAt_mark, htag, hread]
      rfl
    · rw [Flow.fragment, hfragment]
      rfl

/-- Calls that end their line wait for a block. -/
theorem expandValue_chainTags (f : Intrinsic) (calls : List Intrinsic) :
    expandValue (chainTags (f :: calls)) = .ok (.block ((f :: calls).map Intrinsic.longName) none) := by
  obtain ⟨flow, hread, hfragment⟩ := flowAt_chainTags f calls
  obtain ⟨cs, hcs⟩ := chainTags_cons f calls
  have hmark : hasMark (chainTags (f :: calls)) = true := by simp [hcs, hasMark]
  have hopens : opensFlow (chainTags (f :: calls)) = true := by rw [hcs]; rfl
  rw [expandValue_eq, hmark, hopens, hread]
  simp only [Bool.and_self, if_true, hfragment]

end CloudTemplate.Shorthand
