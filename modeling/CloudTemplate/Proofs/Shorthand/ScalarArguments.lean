import CloudTemplate.Proofs.Shorthand.LongForms
import CloudTemplate.Proofs.Shorthand.Quotes
/-! The strings of scalar arguments. A scalar behind a tag denotes the string that its argument in the long form
denotes, whichever characters are in it. The parts of an attribute are cut out of the text between the quotes and put
between quotes of their own, so they denote that text: its escapes are not undone before. -/
namespace CloudTemplate.Shorthand

inductive LastScalar where
  | plain (text : List Char) (starts : startsScalar text = true) (ends : Text.trimEnd text = text)
      (announcesNothing : isBlockIndicator text = false) (worded : isNumeric text = false)
  | quoted (body : QuotedText)

theorem startsScalar_cons {c : Char} {cs : List Char} (h : startsScalar (c :: cs) = true) :
    Text.isBlank c = false ∧ opensFlow (c :: cs) = false ∧ c ≠ '"' := by
  simp only [startsScalar, Bool.and_eq_true, Bool.not_eq_true', List.contains_cons, List.contains_nil, Bool.or_false,
    Bool.or_eq_false_iff, beq_eq_false_iff_ne] at h
  obtain ⟨hblank, hmark, hbracket, hbrace, hquote⟩ := h
  exact ⟨hblank, by simp [opensFlow, hmark, hbracket, hbrace], hquote⟩

theorem trim_eq_self {text : List Char} (starts : startsScalar text = true) (ends : Text.trimEnd text = text) :
    Text.trim text = text := by
  cases text with
  | nil => contradiction
  | cons c cs =>
    have hblank := (startsScalar_cons starts).1
    rw [Text.trim, Text.trimStart, List.dropWhile_cons_of_neg (by simp [hblank]), ends]

namespace LastScalar

def text : LastScalar → List Char
  | .plain text .. => text
  | .quoted body => inQuotes body.text

def content : LastScalar → List Char
  | .plain text .. => text
  | .quoted body => body.text

def string : LastScalar → List Char
  | .plain text .. => text
  | .quoted body => unescape body.text

def flow : LastScalar → Flow
  | .plain text .. => .plain text
  | .quoted body => .quoted body.text

variable (scalar : LastScalar)

theorem isBlockIndicator_text : isBlockIndicator scalar.text = false := by
  cases scalar with
  | plain text starts ends announcesNothing => exact announcesNothing
  | quoted body => rfl

theorem head_text : ∃ c cs, scalar.text = c :: cs ∧ Text.isBlank c = false := by
  cases scalar with
  | plain text starts =>
    cases text with
    | nil => contradiction
    | cons c cs => exact ⟨c, cs, rfl, (startsScalar_cons starts).1⟩
  | quoted body => exact ⟨'"', body.text ++ ['"'], rfl, rfl⟩

theorem afterGap_text : afterGap scalar.text = scalar.text := by
  obtain ⟨c, cs, hcs, hblank⟩ := scalar.head_text
  rw [hcs]
  refine afterGap_cons (Bool.eq_false_iff.2 fun hgap => ?_) cs
  rw [Text.isBlank_of_isGap hgap] at hblank
  contradiction

/-- The scalar is read to its end. -/
theorem flowAt_text : flowAt false scalar.text = .ok (scalar.flow, []) := by
  have hgap := scalar.afterGap_text
  obtain ⟨c, cs, hcs, -⟩ := scalar.head_text
  cases scalar with
  | quoted body =>
    have hread := flowAt_quoted body false []
    rwa [List.append_nil] at hread
  | plain text starts ends =>
    obtain rfl : text = c :: cs := hcs
    obtain ⟨-, hopens, hquote⟩ := startsScalar_cons starts
    have hgap : afterGap (c :: cs) = c :: cs := hgap
    have hplain : plainText false (c :: cs) = c :: cs := ends
    have hread := @flowAt_plain false (c :: cs)
    rw [hgap, hplain, List.drop_length] at hread
    exact hread (List.cons_ne_nil _ _) hopens (by simpa using hquote)

end LastScalar

def tagText (f : Intrinsic) (gap : Spacing) (value : List Char) : List Char :=
  '!' :: (f.tag.toList ++ (gap.text ++ value))

def longText (f : Intrinsic) (argument : List Char) : List Char := callText f.longName (.structured argument)

def tagTexts (outer : List (Intrinsic × Spacing)) (value : List Char) : List Char :=
  outer.foldr (fun tag value => tagText tag.1 tag.2 value) value

def longTexts (outer : List (Intrinsic × Spacing)) (argument : List Char) : List Char :=
  outer.foldr (fun tag argument => longText tag.1 argument) argument

theorem flowAt_tagText (f : Intrinsic) (gap : Spacing) {value : List Char} (hne : value ≠ [])
    (hapart : ∀ c ∈ (gap.text ++ value).head?, c.isAlphanum = false) (hgap : afterGap value = value)
    (hindicator : isBlockIndicator value = false) :
    flowAt false (tagText f gap value) = mapRead (.call f) (flowAt false value) := by
  have hlacks : lacksArgument false value = false := by
    cases value with
    | nil => contradiction
    | cons c cs => rfl
  rw [tagText, flowAt_mark, tagAt_apart f false gap hapart hgap, hlacks, hindicator]
  rfl

/-- A call behind more tags becomes the innermost argument of their functions. -/
theorem flowAt_tagTexts (outer : List (Intrinsic × Spacing)) {cs text : List Char} {call : Flow}
    (h : flowAt false ('!' :: cs) = .ok (call, [])) (htext : call.fragment = .structured text) :
    ∃ flow, flowAt false (tagTexts outer ('!' :: cs)) = .ok (flow, []) ∧
      flow.fragment = .structured (longTexts outer text) ∧ (tagTexts outer ('!' :: cs)).head? = some '!' := by
  induction outer with
  | nil => exact ⟨call, h, htext, rfl⟩
  | cons tag outer ih =>
    obtain ⟨f, gap⟩ := tag
    obtain ⟨flow, hread, hfragment, hhead⟩ := ih
    obtain ⟨rest, hrest⟩ := List.head?_eq_some_iff.1 hhead
    have htexts : tagTexts ((f, gap) :: outer) ('!' :: cs) = tagText f gap ('!' :: rest) := by rw [← hrest]; rfl
    have hapart : ∀ c ∈ (gap.text ++ '!' :: rest).head?, c.isAlphanum = false :=
      gap.forall_head (fun _ => not_isAlphanum_of_isGap) (by simp)
    refine ⟨.call f flow, ?_, ?_, by rw [htexts]; rfl⟩
    · rw [htexts, flowAt_tagText f gap (List.cons_ne_nil _ _) hapart (afterGap_cons rfl rest) rfl, ← hrest, hread]
      rfl
    · rw [Flow.fragment, hfragment]
      rfl

theorem Denotes.append_inj {x x' s s' rest rest' : List Char} (h : Denotes x s) (h' : Denotes x' s')
    (heq : x ++ rest = x' ++ rest') : s = s' ∧ rest = rest' := by
  obtain ⟨body, rfl, hstays, hs⟩ := h
  obtain ⟨body', rfl, hstays', hs'⟩ := h'
  have htexts : body ++ '"' :: rest = body' ++ '"' :: rest' := by simpa [inQuotes] using heq
  have hclose := closeQuote_append ⟨body, hstays⟩ rest
  rw [htexts, closeQuote_append ⟨body', hstays'⟩ rest'] at hclose
  obtain ⟨rfl, rfl⟩ := Prod.mk.inj (Option.some.inj hclose)
  exact ⟨hs.symm.trans hs', rfl⟩

theorem denotes_quote_self (s : List Char) : Denotes (quote s) s :=
  denotes_inQuotes.2 ⟨staysQuoted_escaped s, unescape_escaped s⟩

/-- Which string the argument of an attribute look-up denotes: a list of the parts before and after its first point, or
one string without a point. -/
inductive DenotesAttribute : List Char → List Char → Prop
  | parts {x y resource name : List Char} (hpoint : '.' ∉ resource) (hx : Denotes x resource) (hy : Denotes y name) :
      DenotesAttribute ('[' :: (x ++ (", ".toList ++ (y ++ [']'])))) (resource ++ '.' :: name)
  | whole {x s : List Char} (hpoint : '.' ∉ s) (hx : Denotes x s) : DenotesAttribute x s

/-- The parts of a text that is cut at its first point. -/
theorem splitPoint_some {cs front back : List Char} (h : splitPoint cs = some (front, back)) :
    cs = front ++ '.' :: back ∧ '.' ∉ front := by
  have hfront : '.' ∉ cs.takeWhile (· != '.') := fun hmem => by simpa using List.mem_takeWhile_imp hmem
  rw [splitPoint] at h
  split at h
  · rename_i hpoint
    cases h
    have hrest : (cs.dropWhile (· != '.')).head? = some '.' := by
      cases hdrop : cs.dropWhile (· != '.') with
      | nil =>
        have hall := List.dropWhile_eq_nil_iff.1 hdrop '.' (List.contains_iff_mem.1 hpoint)
        simp at hall
      | cons c rest =>
        have hhead := List.head?_dropWhile_not (· != '.') cs
        rw [hdrop] at hhead
        simpa using hhead
    obtain ⟨rest, hrest⟩ := List.head?_eq_some_iff.1 hrest
    refine ⟨?_, hfront⟩
    rw [hrest, List.drop_one, List.tail_cons, ← hrest, List.takeWhile_append_dropWhile]
  · contradiction

theorem splitPoint_none {cs : List Char} (h : splitPoint cs = none) : '.' ∉ cs := by
  rw [splitPoint] at h
  split at h
  · contradiction
  · rename_i hpoint
    exact fun hmem => hpoint (List.contains_iff_mem.2 hmem)

theorem denotesAttribute_attributeList (s : List Char) : DenotesAttribute (attributeList s) s := by
  rw [attributeList]
  cases hsplit : splitPoint s with
  | none => exact .whole (splitPoint_none hsplit) (denotes_quote_self s)
  | some parts =>
    obtain ⟨rfl, hpoint⟩ := splitPoint_some hsplit
    have hparts := DenotesAttribute.parts hpoint (denotes_quote_self parts.1) (denotes_quote_self parts.2)
    simpa using hparts

theorem DenotesAttribute.unique {x s s' : List Char} (h : DenotesAttribute x s) (h' : DenotesAttribute x s') : s = s' := by
  cases h with
  | @parts x y resource name hpoint hx hy =>
    generalize hlist : '[' :: (x ++ (", ".toList ++ (y ++ [']']))) = list at h'
    cases h' with
    | @parts x' y' resource' name' _ hx' hy' =>
      obtain ⟨rfl, hrest⟩ := hx.append_inj hx' (List.cons.inj hlist).2
      obtain ⟨rfl, -⟩ := hy.append_inj hy' (List.append_cancel_left hrest)
      rfl
    | whole _ hx' =>
      obtain ⟨body, rfl, -⟩ := hx'
      cases hlist
  | whole _ hx =>
    cases h' with
    | parts =>
      obtain ⟨body, hbody, -⟩ := hx
      cases hbody
    | whole _ hx' => exact (hx.append_inj hx' (congrArg (· ++ []) rfl)).1

/-- The parts of an attribute denote the text that they were cut out of and no other. -/
theorem denotesAttribute_attributeList_iff (content s : List Char) :
    DenotesAttribute (attributeList content) s ↔ s = content := by
  constructor
  · exact fun h => h.unique (denotesAttribute_attributeList content)
  · rintro rfl
    exact denotesAttribute_attributeList s

namespace LastScalar

variable (scalar : LastScalar) (f : Intrinsic)

theorem argumentText_getAtt : argumentText Intrinsic.getAtt.longName scalar.flow.fragment = attributeList scalar.content := by
  cases scalar with
  | plain text starts ends => rw [flow, Flow.fragment, argumentText, if_pos rfl, trim_eq_self starts ends, content]
  | quoted body => rw [flow, Flow.fragment, argumentText, if_pos rfl, content]

theorem denotes_argumentText (h : f ≠ .getAtt) : Denotes (argumentText f.longName scalar.flow.fragment) scalar.string := by
  have hname : f.longName ≠ Intrinsic.getAtt.longName := fun hname => h ((longName_eq_getAtt_iff f).1 hname)
  cases scalar with
  | plain text starts ends announcesNothing worded =>
    rw [flow, Flow.fragment, argumentText, if_neg hname, trim_eq_self starts ends, worded, if_neg Bool.false_ne_true]
    exact denotes_quote_self text
  | quoted body =>
    rw [flow, Flow.fragment, argumentText, if_neg hname]
    exact denotes_inQuotes.2 ⟨body.closed, rfl⟩

theorem fragment_call : (Flow.call f scalar.flow).fragment =
    .structured (longText f (argumentText f.longName scalar.flow.fragment)) := by
  cases scalar <;> rfl

/-- A value that ends with a scalar argument is written out with that argument in the innermost call. -/
theorem expandValue_tagTexts (outer : List (Intrinsic × Spacing)) (gap : Spacing)
    (hapart : ∀ c ∈ (gap.text ++ scalar.text).head?, c.isAlphanum = false) :
    expandValue (tagTexts outer (tagText f gap scalar.text)) =
      .ok (.inline (longTexts outer (longText f (argumentText f.longName scalar.flow.fragment)))) := by
  have hne : scalar.text ≠ [] := by
    obtain ⟨c, cs, hcs, -⟩ := scalar.head_text
    simp [hcs]
  have hcall := flowAt_tagText f gap hne hapart scalar.afterGap_text scalar.isBlockIndicator_text
  rw [scalar.flowAt_text] at hcall
  obtain ⟨flow, hread, hfragment, hhead⟩ := flowAt_tagTexts outer hcall (scalar.fragment_call f)
  obtain ⟨rest, hrest⟩ := List.head?_eq_some_iff.1 hhead
  rw [← tagText] at hread hrest
  have hmark : '!' ∈ tagTexts outer (tagText f gap scalar.text) := by simp [hrest]
  have hopens : opensFlow (tagTexts outer (tagText f gap scalar.text)) = true := by rw [hrest]; rfl
  rw [expandValue_of_flowAt hmark hopens hread hfragment, List.append_nil]

end LastScalar

/-- The argument that a scalar is written out as denotes the string of the scalar. That of an attribute look-up denotes
the text between the quotes, in two parts if there is a point in it, and so the string only if no escape is undone. -/
theorem expandValue_lastScalar (outer : List (Intrinsic × Spacing)) (f : Intrinsic) (gap : Spacing) (scalar : LastScalar)
    (hapart : ∀ c ∈ (gap.text ++ scalar.text).head?, c.isAlphanum = false) :
    ∃ argument, expandValue (tagTexts outer (tagText f gap scalar.text)) =
        .ok (.inline (longTexts outer (longText f argument))) ∧
      (f ≠ .getAtt → Denotes argument scalar.string) ∧
      (f = .getAtt → DenotesAttribute argument scalar.content ∧
        (DenotesAttribute argument scalar.string ↔ scalar.string = scalar.content)) := by
  refine ⟨_, scalar.expandValue_tagTexts f outer gap hapart, scalar.denotes_argumentText f, ?_⟩
  rintro rfl
  rw [scalar.argumentText_getAtt]
  exact ⟨denotesAttribute_attributeList _, denotesAttribute_attributeList_iff _ _⟩

/-- A quote in a string stays a quote, and a point in it cuts an attribute off. -/
theorem expandValue_lastScalar_escape :
    (∃ argument, expandValue "!Base64 !Sub \"a \\\"b\\\"\"".toList =
        .ok (.inline (longTexts [(.base64, oneSpace)] (longText .sub argument))) ∧ Denotes argument "a \"b\"".toList) ∧
      ∃ argument, expandValue "!GetAtt a.b.c".toList = .ok (.inline (longText .getAtt argument)) ∧
        DenotesAttribute argument "a.b.c".toList := by
  have hbody : staysQuoted "a \\\"b\\\"".toList = true := by decide
  constructor
  · obtain ⟨argument, hexpand, hdenotes, -⟩ :=
      expandValue_lastScalar [(.base64, oneSpace)] .sub oneSpace (.quoted ⟨"a \\\"b\\\"".toList, hbody⟩)
        (isAlphanum_head_append oneSpace_ne_nil)
    exact ⟨argument, hexpand, hdenotes (by decide)⟩
  · obtain ⟨argument, hexpand, -, hparts⟩ :=
      expandValue_lastScalar [] .getAtt oneSpace (.plain "a.b.c".toList (by decide) (by decide) (by decide) (by decide))
        (isAlphanum_head_append oneSpace_ne_nil)
    exact ⟨argument, hexpand, (hparts rfl).1⟩

/-- An escaped quote in an attribute is escaped twice: the first part denotes the backslash too. -/
theorem expandValue_getAtt_escape :
    expandValue "!GetAtt \"a\\\"b.c\"".toList =
        .ok (.inline "\x7b \"Fn::GetAtt\" : [\"a\\\\\\\"b\", \"c\"] \x7d".toList) ∧
      Denotes "\"a\\\"b.c\"".toList "a\"b.c".toList ∧
      ¬DenotesAttribute "[\"a\\\\\\\"b\", \"c\"]".toList "a\"b.c".toList := by
  have hbody : staysQuoted "a\\\"b.c".toList = true := by decide
  have hdenotes : Denotes (inQuotes "a\\\"b.c".toList) "a\"b.c".toList := denotes_inQuotes.2 ⟨hbody, by decide⟩
  let scalar : LastScalar := .quoted ⟨"a\\\"b.c".toList, hbody⟩
  have hexpand := scalar.expandValue_tagTexts .getAtt [] oneSpace (isAlphanum_head_append oneSpace_ne_nil)
  refine ⟨hexpand, hdenotes, fun h => ?_⟩
  have hcontent := (denotesAttribute_attributeList_iff "a\\\"b.c".toList _).1 h
  exact absurd hcontent (by decide)

end CloudTemplate.Shorthand
