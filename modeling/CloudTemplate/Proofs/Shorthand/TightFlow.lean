import CloudTemplate.Proofs.Shorthand.BrokenLines
import CloudTemplate.Proofs.Shorthand.ApartRuns
/-! Collections, tags, words and strings with one space behind each comma, each key and each tag. Line breaks behind their
commas do not matter. -/
namespace CloudTemplate.Shorthand

structure QuotedLine extends QuotedText where
  single : '\'' ∉ text
  unbroken : '\n' ∉ text

mutual

inductive TightFlow where
  | word (letters : Letters)
  | quoted (body : QuotedLine)
  | sequence (items : TightItems)
  | mapping (pairs : TightPairs)
  | call (f : Intrinsic) (argument : TightFlow)

inductive TightItems where
  | last (value : TightFlow)
  | more (value : TightFlow) (rest : TightItems)

inductive TightPairs where
  | last (key : Letters) (value : TightFlow)
  | more (key : Letters) (value : TightFlow) (rest : TightPairs)

end

mutual

def TightFlow.text : TightFlow → List Char
  | .word letters => letters.text
  | .quoted body => inQuotes body.text
  | .sequence items => '[' :: items.text
  | .mapping pairs => '\x7b' :: pairs.text
  | .call f argument => '!' :: f.tag.toList ++ ' ' :: argument.text

def TightItems.text : TightItems → List Char
  | .last value => value.text ++ [']']
  | .more value rest => value.text ++ ',' :: ' ' :: rest.text

def TightPairs.text : TightPairs → List Char
  | .last key value => key.text ++ ':' :: ' ' :: (value.text ++ ['\x7d'])
  | .more key value rest => key.text ++ ':' :: ' ' :: (value.text ++ ',' :: ' ' :: rest.text)

end

mutual

def TightFlow.hasCall : TightFlow → Bool
  | .word _ => false
  | .quoted _ => false
  | .sequence items => items.hasCall
  | .mapping pairs => pairs.hasCall
  | .call .. => true

def TightItems.hasCall : TightItems → Bool
  | .last value => value.hasCall
  | .more value rest => value.hasCall || rest.hasCall

def TightPairs.hasCall : TightPairs → Bool
  | .last _ value => value.hasCall
  | .more _ value rest => value.hasCall || rest.hasCall

end

theorem Letters.trimEnd_text (letters : Letters) : Text.trimEnd letters.text = letters.text :=
  Text.trimEnd_eq_self letters.isBlank

def Letters.flowKey (key : Letters) : FlowKey :=
  .plain {
    text := key.text
    spacing := noSpace
    starts := by
      obtain ⟨c, cs, hcs, hc⟩ := key.text_eq_cons
      have hquote : c ≠ '"' := ne_of_isTame (isTame_of_isAlphanum hc) rfl
      simp [hcs, isBlank_of_isAlphanum hc, hquote]
    nonempty := key.nonempty
    ends := key.trimEnd_text
    unbroken := staysKey_of_forall (key.ne_of_mem_append noSpace) } noSpace

mutual

def TightFlow.node : TightFlow → Node
  | .word letters => .plain letters.scalar
  | .quoted body => .quoted body.toQuotedText
  | .sequence items => .sequence (items.node noSpace)
  | .mapping pairs => .mapping (pairs.node noSpace)
  | .call f argument => .call f oneSpace oneSpace_ne_nil argument.node

def TightItems.node (before : Spacing) : TightItems → NodeItems
  | .last value => .last before value.node noSpace
  | .more value rest => .more before value.node noSpace (rest.node oneSpace)

def TightPairs.node (before : Spacing) : TightPairs → NodePairs
  | .last key value => .last before key.flowKey value.node noSpace
  | .more key value rest => .more before key.flowKey value.node noSpace (rest.node oneSpace)

end

mutual

theorem TightFlow.source_node (value : TightFlow) : value.node.source = value.text := by
  match value with
  | .word letters => rfl
  | .quoted body => rfl
  | .sequence items => simp [TightFlow.node, Node.source, TightFlow.text, items.source_node, noSpace]
  | .mapping pairs => simp [TightFlow.node, Node.source, TightFlow.text, pairs.source_node, noSpace]
  | .call f argument => simp [TightFlow.node, Node.source, TightFlow.text, argument.source_node, oneSpace]

theorem TightItems.source_node (items : TightItems) (before : Spacing) :
    (items.node before).source = before.text ++ items.text := by
  match items with
  | .last value => simp [TightItems.node, NodeItems.source, TightItems.text, value.source_node, noSpace]
  | .more value rest =>
    simp [TightItems.node, NodeItems.source, TightItems.text, value.source_node, rest.source_node, noSpace, oneSpace]

theorem TightPairs.source_node (pairs : TightPairs) (before : Spacing) :
    (pairs.node before).source = before.text ++ pairs.text := by
  match pairs with
  | .last key value =>
    simp [TightPairs.node, NodePairs.source, TightPairs.text, value.source_node, noSpace, Letters.flowKey, FlowKey.text,
      FlowKey.name, FlowKey.before, FlowKey.after]
  | .more key value rest =>
    simp [TightPairs.node, NodePairs.source, TightPairs.text, value.source_node, rest.source_node, noSpace, oneSpace,
      Letters.flowKey, FlowKey.text, FlowKey.name, FlowKey.before, FlowKey.after]

end

mutual

theorem TightFlow.hasCall_node (value : TightFlow) : value.node.hasCall = value.hasCall := by
  match value with
  | .word letters => rfl
  | .quoted body => rfl
  | .sequence items => exact items.hasCall_node noSpace
  | .mapping pairs => exact pairs.hasCall_node noSpace
  | .call f argument => rfl

theorem TightItems.hasCall_node (items : TightItems) (before : Spacing) : (items.node before).hasCall = items.hasCall := by
  match items with
  | .last value => exact value.hasCall_node
  | .more value rest => simp only [TightItems.node, NodeItems.hasCall, TightItems.hasCall, value.hasCall_node, rest.hasCall_node]

theorem TightPairs.hasCall_node (pairs : TightPairs) (before : Spacing) : (pairs.node before).hasCall = pairs.hasCall := by
  match pairs with
  | .last key value => exact value.hasCall_node
  | .more key value rest =>
    simp only [TightPairs.node, NodePairs.hasCall, TightPairs.hasCall, value.hasCall_node, rest.hasCall_node]

end

structure IsTightRun (least weight : Int) (cs : List Char) : Prop where
  run : IsPlainRun weight true cs
  separates : ∀ level, least ≤ level → commasSeparate .outside level cs = true
  single : '\'' ∉ cs
  unbroken : '\n' ∉ cs

namespace IsTightRun

variable {least weight : Int} {cs : List Char}

theorem mono {more : Int} (h : IsTightRun least weight cs) (hle : least ≤ more) : IsTightRun more weight cs :=
  ⟨h.run, fun level hlevel => h.separates level (Int.le_trans hle hlevel), h.single, h.unbroken⟩

theorem append {inner other : Int} {ds : List Char} (h : IsTightRun least weight cs) (h' : IsTightRun inner other ds)
    (hinner : inner ≤ least + weight) : IsTightRun least (weight + other) (cs ++ ds) where
  run := h.run.append (h'.run.mono (Bool.le_true _))
  separates level hlevel := by
    refine commasSeparate_append (h.separates level hlevel) ?_
    rw [closesQuotes_iff.1 h.run.closes]
    refine h'.separates _ ?_
    have hbalance : balanceFrom .outside cs = weight := h.run.balance
    omega
  single := by simp [h.single, h'.single]
  unbroken := by simp [h.unbroken, h'.unbroken]

theorem of_isIdle (h : ∀ c ∈ cs, isIdle c = true ∧ c ≠ ',' ∧ c ≠ '\'' ∧ c ≠ '\n') : IsTightRun least 0 cs where
  run := isInert_of_isIdle fun c hc => (h c hc).1
  separates _ _ := commasSeparate_of_not_mem (fun hmem => (h _ hmem).2.1 rfl) _ _
  single hmem := (h _ hmem).2.2.1 rfl
  unbroken hmem := (h _ hmem).2.2.2 rfl

theorem of_isTame (h : ∀ c ∈ cs, isTame c = true) : IsTightRun least 0 cs :=
  of_isIdle fun c hc => ⟨isIdle_of (h c hc) rfl, ne_of_isTame (h c hc) rfl, ne_of_isTame (h c hc) rfl,
    ne_of_isTame (h c hc) rfl⟩

/-- A comma between brackets, and what goes on behind it. -/
theorem comma {c : Char} (h : IsTightRun least weight (c :: cs)) (hc : startsPiece c = true) (hleast : 0 < least) :
    IsTightRun least weight (',' :: ' ' :: c :: cs) where
  run := by
    have hcomma : IsPlainRun 0 true [',', ' '] := ⟨⟨rfl, rfl⟩, rfl⟩
    have hrun := hcomma.append (h.run.mono (Bool.le_true _))
    rwa [Int.zero_add] at hrun
  separates level hlevel := by
    have hpositive : 0 < level := by omega
    have hrest := h.separates level hlevel
    simpa [commasSeparate, hpositive, goesOn, hc, bracketWeight, Quoting.next] using hrest
  single := by simpa using h.single
  unbroken := by simpa using h.unbroken

end IsTightRun

theorem startsPiece_of_isAlphanum {c : Char} (h : c.isAlphanum = true) : startsPiece c = true := by
  have hdash : c ≠ '-' := ne_of_isTame (isTame_of_isAlphanum h) rfl
  simp [startsPiece, isBlank_of_isAlphanum h, hdash]

theorem TightFlow.text_eq_cons (value : TightFlow) : ∃ c cs, value.text = c :: cs ∧ startsPiece c = true := by
  cases value with
  | word letters =>
    obtain ⟨c, cs, hcs, hc⟩ := letters.text_eq_cons
    exact ⟨c, cs, hcs, startsPiece_of_isAlphanum hc⟩
  | quoted body => exact ⟨'"', body.text ++ ['"'], rfl, rfl⟩
  | sequence items => exact ⟨'[', items.text, rfl, rfl⟩
  | mapping pairs => exact ⟨'\x7b', pairs.text, rfl, rfl⟩
  | call f argument => exact ⟨'!', f.tag.toList ++ ' ' :: argument.text, rfl, rfl⟩

theorem TightItems.text_eq_cons (items : TightItems) : ∃ c cs, items.text = c :: cs ∧ startsPiece c = true := by
  cases items with
  | last value =>
    obtain ⟨c, cs, hcs, hc⟩ := value.text_eq_cons
    exact ⟨c, cs ++ [']'], by rw [TightItems.text, hcs]; rfl, hc⟩
  | more value rest =>
    obtain ⟨c, cs, hcs, hc⟩ := value.text_eq_cons
    exact ⟨c, cs ++ ',' :: ' ' :: rest.text, by rw [TightItems.text, hcs]; rfl, hc⟩

theorem TightPairs.text_eq_cons (pairs : TightPairs) : ∃ c cs, pairs.text = c :: cs ∧ startsPiece c = true := by
  cases pairs with
  | last key value =>
    obtain ⟨c, cs, hcs, hc⟩ := key.text_eq_cons
    exact ⟨c, cs ++ ':' :: ' ' :: (value.text ++ ['\x7d']), by rw [TightPairs.text, hcs]; rfl, startsPiece_of_isAlphanum hc⟩
  | more key value rest =>
    obtain ⟨c, cs, hcs, hc⟩ := key.text_eq_cons
    exact ⟨c, cs ++ ':' :: ' ' :: (value.text ++ ',' :: ' ' :: rest.text), by rw [TightPairs.text, hcs]; rfl,
      startsPiece_of_isAlphanum hc⟩

/-- A key in front of a value, with its colon and a space. -/
theorem IsTightRun.key {least weight : Int} {cs : List Char} (key : Letters) (h : IsTightRun least weight cs) :
    IsTightRun least weight (key.text ++ ':' :: ' ' :: cs) := by
  have hcolon : IsTightRun least 0 [':', ' '] := ⟨⟨⟨rfl, rfl⟩, rfl⟩, fun _ _ => rfl, by decide, by decide⟩
  have hkey : IsTightRun least 0 key.text := .of_isTame key.isTame
  simpa using hkey.append (hcolon.append h (by omega)) (by omega)

mutual

theorem TightFlow.isTightRun (value : TightFlow) : IsTightRun 0 0 value.text := by
  match value with
  | .word letters => exact .of_isTame letters.isTame
  | .quoted body =>
    refine ⟨isInert_inQuotes body.closed, fun level _ => commasSeparate_inQuotes body.closed level, ?_, ?_⟩
    · simp [TightFlow.text, inQuotes, body.single]
    · simp [TightFlow.text, inQuotes, body.unbroken]
  | .sequence items =>
    have hbracket : IsTightRun 0 1 ['['] := ⟨⟨⟨rfl, rfl⟩, rfl⟩, fun _ _ => rfl, by decide, by decide⟩
    exact hbracket.append items.isTightRun (by omega)
  | .mapping pairs =>
    have hbrace : IsTightRun 0 1 ['\x7b'] := ⟨⟨⟨rfl, rfl⟩, rfl⟩, fun _ _ => rfl, by decide, by decide⟩
    exact hbrace.append pairs.isTightRun (by omega)
  | .call f argument =>
    have htag : ∀ c ∈ '!' :: (f.tag.toList ++ [' ']), isTame c = true := by
      intro c hc
      rw [List.mem_cons, List.mem_append, List.mem_singleton] at hc
      obtain rfl | hc | rfl := hc
      · rfl
      · exact isTame_of_isAlphanum (isAlphanum_of_mem_tag hc)
      · rfl
    have hfront : IsTightRun 0 0 ('!' :: (f.tag.toList ++ [' '])) := .of_isTame htag
    simpa [TightFlow.text] using hfront.append argument.isTightRun (by omega)

theorem TightItems.isTightRun (items : TightItems) : IsTightRun 1 (-1) items.text := by
  match items with
  | .last value =>
    have hvalue : IsTightRun 1 0 value.text := value.isTightRun.mono (by decide)
    have hbracket : IsTightRun 0 (-1) [']'] := ⟨⟨⟨rfl, rfl⟩, rfl⟩, fun _ _ => rfl, by decide, by decide⟩
    exact hvalue.append hbracket (by decide)
  | .more value rest =>
    have hvalue : IsTightRun 1 0 value.text := value.isTightRun.mono (by decide)
    have hrest := rest.isTightRun
    obtain ⟨c, cs, hcs, hc⟩ := rest.text_eq_cons
    rw [TightItems.text, hcs]
    exact hvalue.append ((hcs ▸ hrest).comma hc (by decide)) (by decide)

theorem TightPairs.isTightRun (pairs : TightPairs) : IsTightRun 1 (-1) pairs.text := by
  match pairs with
  | .last key value =>
    have hvalue : IsTightRun 1 0 value.text := value.isTightRun.mono (by decide)
    have hbrace : IsTightRun 0 (-1) ['\x7d'] := ⟨⟨⟨rfl, rfl⟩, rfl⟩, fun _ _ => rfl, by decide, by decide⟩
    exact .key key (hvalue.append hbrace (by decide))
  | .more key value rest =>
    have hvalue : IsTightRun 1 0 value.text := value.isTightRun.mono (by decide)
    have hrest := rest.isTightRun
    obtain ⟨c, cs, hcs, hc⟩ := rest.text_eq_cons
    rw [TightPairs.text, hcs]
    exact .key key (hvalue.append ((hcs ▸ hrest).comma hc (by decide)) (by decide))

end

def EndsFilled (cs : List Char) : Prop := ∃ front c, cs = front ++ [c] ∧ Text.isBlank c = false ∧ c ≠ ':'

theorem EndsFilled.append {ds : List Char} (h : EndsFilled ds) (cs : List Char) : EndsFilled (cs ++ ds) := by
  obtain ⟨front, c, rfl, hc⟩ := h
  exact ⟨cs ++ front, c, (List.append_assoc _ _ _).symm, hc⟩

mutual

theorem TightFlow.endsFilled (value : TightFlow) : EndsFilled value.text := by
  match value with
  | .word letters =>
    obtain ⟨front, c, hfront⟩ := (List.eq_nil_or_concat' letters.text).resolve_left letters.nonempty
    have hc : c ∈ letters.text := by simp [hfront]
    exact ⟨front, c, hfront, letters.isBlank c hc, ne_of_isTame (letters.isTame c hc) rfl⟩
  | .quoted body => exact ⟨'"' :: body.text, '"', rfl, rfl, by decide⟩
  | .sequence items => exact items.endsFilled.append ['[']
  | .mapping pairs => exact pairs.endsFilled.append ['\x7b']
  | .call f argument => exact (argument.endsFilled.append [' ']).append ('!' :: f.tag.toList)

theorem TightItems.endsFilled (items : TightItems) : EndsFilled items.text := by
  match items with
  | .last value => exact ⟨value.text, ']', rfl, rfl, by decide⟩
  | .more value rest => exact (rest.endsFilled.append [',', ' ']).append value.text

theorem TightPairs.endsFilled (pairs : TightPairs) : EndsFilled pairs.text := by
  match pairs with
  | .last key value => exact ((EndsFilled.append ⟨[], '\x7d', rfl, rfl, by decide⟩ value.text).append [':', ' ']).append key.text
  | .more key value rest => exact (((rest.endsFilled.append [',', ' ']).append value.text).append [':', ' ']).append key.text

end

theorem TightFlow.isJoinable (value : TightFlow) (hopens : opensFlow value.text = true) : IsJoinable value.text where
  opens := hopens
  inert := value.isTightRun.run
  separates := value.isTightRun.separates 0 (Int.le_refl 0)
  ends := by
    obtain ⟨front, c, hfront, hc, -⟩ := value.endsFilled
    rw [hfront, Text.trimEnd_concat hc]
  noColon := by
    obtain ⟨front, c, hfront, -, hcolon⟩ := value.endsFilled
    rw [hfront, List.getLast?_concat]
    simpa using hcolon

/-- A tight value behind a key is written out on its line, whatever follows. -/
theorem step_tight (key : Letters) {value : TightFlow} (hopens : opensFlow value.text = true)
    (hcall : value.hasCall = true) (number : Nat) (queue : List SourceLine) :
    step .standard ⟨number, key.text ++ ':' :: ' ' :: value.text⟩ queue =
        .ok ⟨[key.text ++ ':' :: ' ' :: value.node.expanded], queue⟩ ∧
      settle .standard number (key.text ++ ':' :: ' ' :: value.text) queue =
        .ok ⟨[key.text ++ ':' :: ' ' :: value.node.expanded], queue⟩ := by
  have hjoinable := value.isJoinable hopens
  have hlayout := layout_trailing key hopens hjoinable.ends hjoinable.inert.closes hjoinable.inert.noComment .nil
  rw [List.append_nil] at hlayout
  have hform : Form.of .standard (Layout.of (key.text ++ ':' :: ' ' :: value.text)) = .other := by
    rw [hlayout]
    exact Form.of_eq_other (isBlockIndicator_of_opensFlow hopens) (.inr (splitLongForm_of_opensFlow hopens))
      fun _ => Int.le_of_eq hjoinable.inert.balance
  have hexpand : expandValue (Layout.of (key.text ++ ':' :: ' ' :: value.text)).value = .ok (.inline value.node.expanded) := by
    rw [hlayout, ← value.source_node]
    exact expandValue_source value.node (value.hasCall_node.trans hcall) (value.source_node ▸ hopens)
  have hstep := step_of_expandValue hform hexpand number queue
  have hline : (Layout.of (key.text ++ ':' :: ' ' :: value.text)).lead ++ value.node.expanded ++
      (Layout.of (key.text ++ ':' :: ' ' :: value.text)).trailing = key.text ++ ':' :: ' ' :: value.node.expanded := by
    rw [hlayout]
    simp [Layout.lead]
  rw [hline] at hstep
  refine ⟨hstep, ?_⟩
  simpa only [step, hform, reduceCtorEq, if_false] using hstep

theorem linesOf_tight (key : Letters) (value : TightFlow) :
    linesOf (String.ofList (key.text ++ ':' :: ' ' :: value.text)) = [key.text ++ ':' :: ' ' :: value.text] := by
  have htight := value.isTightRun.key key
  have hlines := @linesOf_of_not_mem (String.ofList (key.text ++ ':' :: ' ' :: value.text))
  rw [String.toList_ofList] at hlines
  exact hlines htight.unbroken htight.single

theorem apartRun_tight (key : Letters) {value : TightFlow} (hopens : opensFlow value.text = true)
    (hcall : value.hasCall = true) (rest : List SourceLine) :
    let lines := numberLines 1 (linesOf (String.ofList (key.text ++ ':' :: ' ' :: value.text)))
    ApartRun .standard rest lines ∧
      normalizeLines .standard lines = .ok [key.text ++ ':' :: ' ' :: value.node.expanded] := by
  rw [linesOf_tight]
  exact ApartRun.of_step (step_tight key hopens hcall 1 []).1 (step_tight key hopens hcall 1 rest).1

section Breaks

variable (key : Letters) {value : TightFlow} {broken : String}

theorem step_broken_tight (hopens : opensFlow value.text = true) (hcall : value.hasCall = true)
    (hbroken : Broken (key.text ++ [':', ' ']) value.text (linesOf broken)) (hbreak : 1 < (linesOf broken).length)
    {first : SourceLine} {later : List SourceLine} (hlines : numberLines 1 (linesOf broken) = first :: later)
    (queue : List SourceLine) :
    joinFlow ((Layout.of first.text).lead ++ (Layout.of first.text).value) (later ++ queue) =
        some (key.text ++ ':' :: ' ' :: value.text, later, queue) ∧
      step .standard first (later ++ queue) = .ok ⟨[key.text ++ ':' :: ' ' :: value.node.expanded], queue⟩ := by
  have hmark : '!' ∈ value.text := value.source_node ▸ value.node.mem_source (value.hasCall_node.trans hcall)
  have htexts : (first :: later).map SourceLine.text = linesOf broken := hlines ▸ map_text_numberLines 1 (linesOf broken)
  obtain ⟨hjoin, hstep⟩ := step_broken (value.isJoinable hopens) hmark key hbroken hbreak htexts queue
  exact ⟨hjoin, hstep.trans (step_tight key hopens hcall first.number queue).2⟩

theorem apartRun_broken (hopens : opensFlow value.text = true) (hcall : value.hasCall = true)
    (hbroken : Broken (key.text ++ [':', ' ']) value.text (linesOf broken)) (hbreak : 1 < (linesOf broken).length)
    (rest : List SourceLine) :
    ApartRun .standard rest (numberLines 1 (linesOf broken)) ∧
      normalizeLines .standard (numberLines 1 (linesOf broken)) =
        .ok [key.text ++ ':' :: ' ' :: value.node.expanded] := by
  obtain ⟨first, later, hlines⟩ := List.exists_cons_of_ne_nil (numberLines_ne_nil 1 (doubleQuotes broken.toList))
  have hstep (queue : List SourceLine) := (step_broken_tight key hopens hcall hbroken hbreak hlines queue).2
  have hself := hstep []
  rw [List.append_nil] at hself
  rw [linesOf, hlines]
  exact ApartRun.of_step hself (hstep rest)

/-- Breaking a collection with a tag in it behind commas changes nothing but the numbers of the lines behind it, and the
lines that are joined are those of the collection. -/
theorem normalize_broken (hopens : opensFlow value.text = true) (hcall : value.hasCall = true)
    (hbroken : Broken (key.text ++ [':', ' ']) value.text (linesOf broken)) (hbreak : 1 < (linesOf broken).length) :
    let whole : List Char := key.text ++ ':' :: ' ' :: value.text
    normalize .standard broken = normalize .standard (String.ofList whole) ∧
      (∀ rest : String,
        normalize .standard (broken ++ "\n" ++ rest) =
          (normalize .standard (String.ofList whole ++ "\n" ++ rest)).mapError
            (.renumber (· + ((linesOf broken).length - 1)))) ∧
      ∀ first later queue, numberLines 1 (linesOf broken) = first :: later →
        joinFlow ((Layout.of first.text).lead ++ (Layout.of first.text).value) (later ++ queue) =
          some (whole, later, queue) := by
  intro whole
  have hself := normalize_of_run (apartRun_broken key hopens hcall hbroken hbreak []).2
  have hwhole := normalize_of_run (apartRun_tight key hopens hcall []).2
  refine ⟨hself.trans hwhole.symm, fun rest => ?_, fun first later queue hlines =>
    (step_broken_tight key hopens hcall hbroken hbreak hlines queue).1⟩
  rw [normalize_parts (apartRun_broken key hopens hcall hbroken hbreak _).1, hself,
    normalize_parts (apartRun_tight key hopens hcall _).1, hwhole, linesOf_tight]
  cases normalize .standard rest with
  | ok y => rfl
  | error fault =>
    have hline : (linesOf broken).length + fault.line = 1 + fault.line + ((linesOf broken).length - 1) := by omega
    simp [Except.mapError, LineFault.renumber, hline]

end Breaks

/-- A call broken behind two of its commas, with comments and a blank line, and a fault behind it. -/
theorem normalize_broken_call :
    let broken := "K: !If [a, # one\n\n   # two\n\x7bk: !Ref b,\n  m: \"x, # y\"\x7d, c] # end"
    normalize .standard broken =
        .ok "K: \x7b \"Fn::If\" : [a, \x7bk: \x7b \"Ref\" : \"b\" \x7d, m: \"x, # y\"\x7d, c] \x7d" ∧
      normalize .standard (broken ++ "\n" ++ "N: [!Ref x") = .error ⟨6, .neverClosed⟩ := by
  intro broken
  let letters (c : Char) (hc : c.isAlpha = true) : Letters := ⟨[c], List.cons_ne_nil _ _, List.forall_mem_singleton.2 hc⟩
  let key := letters 'K' rfl
  let quoted : QuotedLine := ⟨⟨"x, # y".toList, rfl⟩, by decide, by decide⟩
  let pairs : TightPairs := .more (letters 'k' rfl) (.call .ref (.word (letters 'b' rfl))) (.last (letters 'm' rfl) (.quoted quoted))
  let value : TightFlow :=
    .call .conditional (.sequence (.more (.word (letters 'a' rfl)) (.more (.mapping pairs) (.last (.word (letters 'c' rfl))))))
  have hcomment (cs : List Char) : IsTrailing (' ' :: '#' :: cs) := ⟨[' '], '#' :: cs, rfl, List.forall_mem_singleton.2 rfl, .inr ⟨rfl, rfl⟩⟩
  have hfillers : ∀ line ∈ [[], "   # two".toList], IsFiller line :=
    List.forall_mem_cons.2 ⟨.inl rfl, List.forall_mem_singleton.2 (.inr ⟨3, " two".toList, rfl⟩)⟩
  have hlast : Broken (Text.spaces 2) "m: \"x, # y\"\x7d, c]".toList ["  m: \"x, # y\"\x7d, c] # end".toList] :=
    .last (Text.spaces 2) "m: \"x, # y\"\x7d, c]".toList (hcomment " end".toList)
  have hmore := @Broken.more (Text.spaces 0) "\x7bk: !Ref b".toList _ [] 2 [] _ rfl .nil (List.forall_mem_nil _) hlast
  have hbroken := @Broken.more (key.text ++ [':', ' ']) "!If [a".toList _ _ 0 _ _ rfl (hcomment " one".toList) hfillers hmore
  have hlines : linesOf broken = ["K: !If [a, # one".toList, [], "   # two".toList, "\x7bk: !Ref b,".toList,
      "  m: \"x, # y\"\x7d, c] # end".toList] := by decide
  obtain ⟨hself, hrest, -⟩ := @normalize_broken key value broken (by decide) (by decide) (hlines ▸ hbroken) (by decide)
  have hwhole := normalize_of_run (@apartRun_tight key value (by decide) (by decide) []).2
  have hexpanded : key.text ++ ':' :: ' ' :: value.node.expanded =
      "K: \x7b \"Fn::If\" : [a, \x7bk: \x7b \"Ref\" : \"b\" \x7d, m: \"x, # y\"\x7d, c] \x7d".toList := by decide
  rw [hexpanded, joinLines, List.intercalate_singleton, String.ofList_toList] at hwhole
  have hfault : normalize .standard "N: [!Ref x" = .error ⟨1, .neverClosed⟩ := by decide +kernel
  refine ⟨hself.trans hwhole, ?_⟩
  rw [hrest, normalize_parts (apartRun_tight key (by decide) (by decide) _).1, hwhole, hfault, linesOf_tight, hlines]
  rfl

end CloudTemplate.Shorthand
