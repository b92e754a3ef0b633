import CloudTemplate.Proofs.Shorthand.Trailing
import CloudTemplate.Proofs.Shorthand.BlockBody
import CloudTemplate.Proofs.Shorthand.Lines
/-! Documents without shorthand, as far as a normalized one is: a line holds no call at a place, or it is
in the body of a block scalar. -/
namespace CloudTemplate.Shorthand

def staysBlockKey : List Char → Bool
  | [] => true
  | ':' :: ' ' :: _ => false
  | ' ' :: '#' :: _ => false
  | c :: cs => c != '"' && staysBlockKey cs

def startsBlockKey : List Char → Bool
  | [] => true
  | c :: cs => !(['!', '[', '\x7b', '#', '|', '>', ' '].contains c) && !(c == '-' && cs.head? == some ' ')

inductive BlockKey : Way → List Char → Prop
  | quoted {body : List Char} (h : staysQuoted body = true) (gap : Spacing) : BlockKey .read (inQuotes body ++ gap.text)
  | plain {key : List Char} (hstart : startsBlockKey key = true) (hbody : staysBlockKey key = true) : BlockKey .read key
  | quoting {key : List Char} (hstart : startsBlockKey key = true) (hquote : key.head? ≠ some '"')
      (hcolon : ¬[':', ' '] <:+: key) (hsharp : ¬[' ', '#'] <:+: key) : BlockKey .missed key
  | value {key : List Char} (h : AnyValue key) (hopens : opensFlow key = true ∨ key.head? = some '&') (gap : Spacing) :
      BlockKey .missed (key ++ gap.text)

/-- What stands before a value on a line: indentation and list markers, and perhaps a key. A layout misses
what is set apart by a tab, what is in an explicit key or its value, and the root behind a document's start. -/
inductive BlockLead : Way → List Char → Prop
  | item {opening : List Char} (h : Opening opening) : BlockLead .read opening
  | key {way : Way} {opening key : List Char} (h : Opening opening) (hkey : BlockKey way key) (n : Nat) :
      BlockLead way (opening ++ (key ++ ':' :: Text.spaces (n + 1)))
  | tabbedKey {way : Way} {opening key : List Char} (h : Opening opening) (hkey : BlockKey way key) (gap : Spacing)
      (htab : '\t' ∈ gap.text) : BlockLead .missed (opening ++ (key ++ ':' :: gap.text))
  | tabbedItem {opening : List Char} (h : Opening opening) (gap : Spacing) (htab : '\t' ∈ gap.text) :
      BlockLead .missed (opening ++ '-' :: gap.text)
  | explicit {way : Way} {opening lead : List Char} {mark : Char} (h : Opening opening) (hmark : mark = '?' ∨ mark = ':')
      (n : Nat) (hlead : BlockLead way lead) : BlockLead .missed (opening ++ mark :: (Text.spaces (n + 1) ++ lead))
  | document (gap : Spacing) (hgap : gap.text ≠ []) : BlockLead .missed ('-' :: '-' :: '-' :: gap.text)

def content (line : List Char) : List Char := (Layout.of line).lead ++ (Layout.of line).value

inductive LineCall (line : List Char) : Prop
  | mk {lead cs : List Char} (hcontent : content line = lead ++ cs) (hlead : BlockLead .read lead) (h : FlowCall .read cs)

/-- Whether a call stands at the place of a value that starts on a line, or within the value there, on as many lines as it
takes. Reading may take a comment on the first of them for text. -/
inductive TextCall : Way → List Char → List Char → List (List Char) → Prop
  | read {lead first : List Char} {after : List (List Char)} (hlead : BlockLead .read lead) (hopens : Opens first)
      (hwhole : first <+: unwrapped (joinLines (first :: after)))
      (h : FlowCall .read (unwrapped (joinLines (first :: after)))) : TextCall .read lead first after
  | missed {way inner : Way} {lead first : List Char} {after : List (List Char)} (hlead : BlockLead way lead)
      (h : FlowCall inner (unwrapped (joinLines (first :: after))))
      (hmissed : way = .missed ∨ inner = .missed ∨ ¬Opens first ∨ ¬first <+: unwrapped (joinLines (first :: after))) :
      TextCall .missed lead first after

def StartsCall (line : List Char) : Prop :=
  ∃ lead first after, line = lead ++ first ∧ TextCall .read lead first after

/-- Whether a line may be in the body of a block scalar that a line before it announces. -/
def IsCovered (before : List (List Char)) (line : List Char) : Prop :=
  ∃ front header middle, before = front ++ header :: middle ∧ isBlockIndicator (Layout.of header).value = true ∧
    ∀ other ∈ middle ++ [line], belongs (Layout.of header).ownerColumn false other = true

theorem splitKeyFrom_staysBlockKey {key : List Char} (h : staysBlockKey key = true) (previous : Option Char)
    (hprevious : previous = some ' ' → key.head? ≠ some '#') {after : List Char} (hafter : endsKey after = true) :
    splitKeyFrom .outside previous (key ++ ':' :: after) = some (key, after) := by
  fun_induction staysBlockKey key generalizing previous with
  | case1 => simp [splitKeyFrom, hafter]
  | case2 => contradiction
  | case3 => contradiction
  | case4 c cs hcolon hsharp ih =>
    rw [Bool.and_eq_true, bne_iff_ne] at h
    have hcomment : ¬(Quoting.outside = .outside ∧ c = '#' ∧ previous = some ' ') := by
      intro hc
      exact hprevious hc.2.2 (by rw [hc.2.1]; rfl)
    have hends : ¬(Quoting.outside = .outside ∧ c = ':' ∧ endsKey (cs ++ ':' :: after) = true) := by
      intro hc
      cases cs with
      | nil => simp [endsKey] at hc
      | cons d ds =>
        have hd : d = ' ' := by simpa [endsKey] using hc.2.2
        exact hcolon ds hc.2.1 (by rw [hd])
    have hnext : Quoting.next .outside c = .outside := if_neg h.1
    have hrest : some c = some ' ' → cs.head? ≠ some '#' := by
      intro hc hhead
      obtain ⟨ds, rfl⟩ := List.head?_eq_some_iff.1 hhead
      exact hsharp ds (Option.some.inj hc) rfl
    rw [List.cons_append, splitKeyFrom, if_neg hcomment, if_neg hends, hnext, ih h.2 _ hrest]
    rfl

theorem splitKeyFrom_gap {gap : List Char} (h : ∀ c ∈ gap, Text.isGap c = true) {previous : Option Char}
    {after : List Char} (hafter : endsKey after = true) :
    splitKeyFrom .outside previous (gap ++ ':' :: after) = some (gap, after) := by
  induction gap generalizing previous with
  | nil => simp [splitKeyFrom, hafter]
  | cons c gap ih =>
    have hc : Text.isGap c = true := h c List.mem_cons_self
    have hsharp : c ≠ '#' := ne_of_isBlank (Text.isBlank_of_isGap hc) rfl
    have hcolon : c ≠ ':' := ne_of_isBlank (Text.isBlank_of_isGap hc) rfl
    have hquote : c ≠ '"' := ne_of_isBlank (Text.isBlank_of_isGap hc) rfl
    have hnext : Quoting.next .outside c = .outside := if_neg hquote
    rw [List.cons_append, splitKeyFrom, if_neg (by simp [hsharp]), if_neg (by simp [hcolon]), hnext,
      ih fun d hd => h d (List.mem_cons_of_mem c hd)]
    rfl

theorem splitKeyFrom_staysQuoted {body : List Char} (h : staysQuoted body = true) (previous : Option Char)
    (gap : Spacing) {after : List Char} (hafter : endsKey after = true) :
    splitKeyFrom .inside previous (body ++ '"' :: (gap.text ++ ':' :: after)) =
      some (body ++ '"' :: gap.text, after) := by
  have hinside (q : Quoting) (hq : q ≠ .outside) (c : Char) (cs : List Char) (previous : Option Char) :
      splitKeyFrom q previous (c :: cs) =
        (splitKeyFrom (q.next c) (some c) cs).map fun split => (c :: split.1, split.2) := by
    rw [splitKeyFrom, if_neg (by simp [hq]), if_neg (by simp [hq])]
  induction body using escapeInduction generalizing previous with
  | nil =>
    have hnext : Quoting.next .inside '"' = .outside := rfl
    rw [List.nil_append, hinside .inside (by decide), hnext, splitKeyFrom_gap gap.isGap hafter]
    rfl
  | last => contradiction
  | quote cs => contradiction
  | pair c cs ih =>
    have hnext : Quoting.next .inside '\\' = .escaped := rfl
    have hescaped : Quoting.next .escaped c = .inside := rfl
    rw [List.cons_append, List.cons_append, hinside .inside (by decide), hnext, hinside .escaped (by decide), hescaped,
      ih h]
    rfl
  | plain c cs hquote hbackslash ih =>
    rw [staysQuoted_cons hquote hbackslash] at h
    have hnext : Quoting.next .inside c = .inside := by rw [Quoting.next, if_neg hquote, if_neg hbackslash]
    rw [List.cons_append, hinside .inside (by decide), hnext, ih h]
    rfl

theorem BlockKey.splitKey {key : List Char} (h : BlockKey .read key) {after : List Char} (hafter : endsKey after = true) :
    splitKey (key ++ ':' :: after) = some (key, after) := by
  -- A quoted key is passed with its escapes; a plain one holds nothing that ends it early.
  cases h with
  | @quoted body h gap =>
    have htext : inQuotes body ++ gap.text ++ ':' :: after = '"' :: (body ++ '"' :: (gap.text ++ ':' :: after)) := by
      simp [inQuotes]
    have hnext : Quoting.next .outside '"' = .inside := rfl
    rw [htext, Shorthand.splitKey, if_neg (by decide), splitKeyFrom, if_neg (by simp), if_neg (by simp), hnext,
      splitKeyFrom_staysQuoted h _ gap hafter]
    simp [inQuotes]
  | plain hstart hbody =>
    have hfrom := splitKeyFrom_staysBlockKey hbody none (by simp) hafter
    cases key with
    | nil => exact hfrom
    | cons c cs =>
      have hc : ¬['!', '[', '\x7b', '#', '|', '>'].contains c = true := by
        intro hc
        simp_all [startsBlockKey]
      rw [List.cons_append, Shorthand.splitKey, if_neg hc, ← List.cons_append, hfrom]

theorem BlockKey.takeOpening {key : List Char} (h : BlockKey .read key) (after : List Char) :
    takeOpening (key ++ ':' :: after) = [] := by
  cases h with
  | quoted => exact takeOpening_cons (by decide) (by decide) _
  | plain hstart =>
    cases key with
    | nil => rfl
    | cons c cs =>
      simp only [startsBlockKey, List.contains_cons, Bool.and_eq_true, Bool.not_eq_true', Bool.or_eq_false_iff,
        beq_eq_false_iff_ne] at hstart
      have hspace : c ≠ ' ' := hstart.1.2.2.2.2.2.2.1
      rw [List.cons_append, Shorthand.takeOpening.eq_def]
      cases cs with
      | nil => split <;> simp_all
      | cons d ds => split <;> simp_all

theorem BlockLead.leads {lead : List Char} (h : BlockLead .read lead) : Layout.Leads lead := by
  cases h with
  | item h => exact Layout.leads_opening h
  | @key _ opening key h hkey n =>
    have hsplit : Shorthand.splitKey (key ++ ':' :: [' ']) = some (key, [' ']) := hkey.splitKey rfl
    exact Layout.leads_key h hsplit (hkey.takeOpening _) (fun c hc => by rw [List.eq_of_mem_replicate hc]; rfl) (by simp [Text.spaces])

/-- A call on a line is within what the layout of the line takes for its value. -/
theorem LineCall.flowCall {line : List Char} (h : LineCall line) : FlowCall .read (Layout.of line).value := by
  cases h with
  | @mk lead cs hcontent hlead h =>
    have htext : content line ++ (Layout.of line).trailing = line := Layout.text_of line
    have hline : line = lead ++ (cs ++ (Layout.of line).trailing) := by rw [← List.append_assoc, ← hcontent, htext]
    have hleads := hlead.leads (cs ++ (Layout.of line).trailing) (h.append _).opensFlow
    rw [← hline] at hleads
    rw [content, hleads] at hcontent
    exact List.append_cancel_left hcontent ▸ h

/-- A single line without a call at a place that reading finds its way to. If lines behind it can go on with a value that
starts on it up to a call, then something is the case. -/
structure IsQuiet (P : List Char → Prop) (line : List Char) : Prop where
  single : '\n' ∉ line
  free : ¬FlowCall .read (Layout.of line).value
  starts : StartsCall line → P line

theorem IsQuiet.imp {P Q : List Char → Prop} {line : List Char} (h : IsQuiet P line) (himp : P line → Q line) :
    IsQuiet Q line :=
  ⟨h.single, h.free, fun hstarts => himp (h.starts hstarts)⟩

theorem Layout.opensFlow_ofRest (opening : List Char) (key : Option (List Char × List Char)) {rest : List Char}
    (h : opensFlow rest = true) : opensFlow (ofRest opening key rest).value = true := by
  cases rest with
  | nil => contradiction
  | cons c cs =>
    have hblank := isBlank_of_opensFlow_cons h
    have hsharp : c ≠ '#' := by
      rintro rfl
      contradiction
    have hvalue : (ofRest opening key (c :: cs)).value =
        Text.trimEnd (c :: (splitCommentFrom (Quoting.next .outside c) (c == ' ') cs).1) := by
      rw [ofRest, splitCommentFrom, if_neg fun hstart => hsharp hstart.2.1]
    obtain ⟨blanks, hsplit, hblanks⟩ :=
      Text.exists_trimEnd_append (c :: (splitCommentFrom (Quoting.next .outside c) (c == ' ') cs).1)
    rw [hvalue]
    cases htrim : Text.trimEnd (c :: (splitCommentFrom (Quoting.next .outside c) (c == ' ') cs).1) with
    | nil =>
      rw [htrim, List.nil_append] at hsplit
      rw [hblanks c (hsplit ▸ List.mem_cons_self)] at hblank
      contradiction
    | cons d ds =>
      rw [htrim, List.cons_append, List.cons.injEq] at hsplit
      rw [hsplit.1]
      exact h

/-- A collection or a tag behind a lead is where the line has its value. -/
theorem Layout.opensFlow_value {line lead first : List Char} (hline : line = lead ++ first) (hlead : BlockLead .read lead)
    (hopens : opensFlow first = true) :
    (Layout.of line).lead = lead ∧ opensFlow (Layout.of line).value = true := by
  have hleads : (Layout.of line).lead = lead := hline ▸ hlead.leads first hopens
  refine ⟨hleads, ?_⟩
  obtain ⟨opening, key, rest, hof⟩ : ∃ opening key rest, Layout.of line = ofRest opening key rest := by
    simp only [Layout.of]
    split <;> exact ⟨_, _, _, rfl⟩
  have htext := Layout.text_of line
  rw [hof, text_ofRest] at htext
  have hwhole : lead ++ rest = lead ++ first := by
    rw [← hline, ← htext, ← hleads, hof]
    rfl
  rw [hof, List.append_cancel_left hwhole]
  exact opensFlow_ofRest opening key hopens

theorem IsQuiet.of_not_opensFlow {P : List Char → Prop} {line : List Char} (hline : '\n' ∉ line)
    (h : opensFlow (Layout.of line).value = false) : IsQuiet P line where
  single := hline
  free hcall := by
    rw [hcall.opensFlow] at h
    contradiction
  starts := by
    rintro ⟨lead, first, after, heq, hlead, hopens, -⟩
    rw [(Layout.opensFlow_value heq hlead hopens.opensFlow).2] at h
    contradiction

theorem IsQuiet.of_not_mem {P : List Char → Prop} {line : List Char} (hline : '\n' ∉ line)
    (h : '!' ∉ (Layout.of line).value) (hP : P line) : IsQuiet P line where
  single := hline
  free hcall := h hcall.mem_mark
  starts _ := hP

inductive Tidy (P : List Char → Prop) : List (List Char) → Prop
  | nil : Tidy P []
  | line {line : List Char} {rest : List (List Char)} (h : P line) (hrest : Tidy P rest) : Tidy P (line :: rest)
  | scalar {header : List Char} {body rest : List (List Char)} (h : P header)
      (hindicator : isBlockIndicator (Layout.of header).value = true)
      (hbody : ∀ line ∈ body, belongs (Layout.of header).ownerColumn false line = true)
      (hsingle : ∀ line ∈ body, '\n' ∉ line) (hrest : Tidy P rest) : Tidy P (header :: (body ++ rest))

section Tidy

variable {P : List Char → Prop} {lines rest : List (List Char)}

theorem Tidy.append (h : Tidy P lines) (hrest : Tidy P rest) : Tidy P (lines ++ rest) := by
  induction h with
  | nil => exact hrest
  | line h _ ih => exact .line h ih
  | scalar h hindicator hbody hsingle _ ih =>
    rw [List.cons_append, List.append_assoc]
    exact .scalar h hindicator hbody hsingle ih

theorem Tidy.of_forall (h : ∀ line ∈ lines, P line) : Tidy P lines := by
  induction lines with
  | nil => exact .nil
  | cons line lines ih =>
    exact .line (h line List.mem_cons_self) (ih fun other hother => h other (List.mem_cons_of_mem line hother))

theorem Tidy.imp {Q : List Char → Prop} (h : Tidy P lines) (himp : ∀ line, P line → Q line) : Tidy Q lines := by
  induction h with
  | nil => exact .nil
  | line h _ ih => exact .line (himp _ h) ih
  | scalar h hindicator hbody hsingle _ ih => exact .scalar (himp _ h) hindicator hbody hsingle ih

theorem Tidy.not_mem_lineFeed (h : Tidy P lines) (hP : ∀ line, P line → '\n' ∉ line) : ∀ line ∈ lines, '\n' ∉ line := by
  induction h with
  | nil => simp
  | line h _ ih => exact List.forall_mem_cons.2 ⟨hP _ h, ih⟩
  | scalar h _ _ hsingle _ ih => exact List.forall_mem_cons.2 ⟨hP _ h, List.forall_mem_append.2 ⟨hsingle, ih⟩⟩

theorem not_isCovered_nil (line : List Char) : ¬IsCovered [] line := by
  rintro ⟨front, header, middle, hbefore, -⟩
  simp at hbefore

theorem IsCovered.append {before : List (List Char)} {line : List Char} (h : IsCovered before line)
    (front : List (List Char)) : IsCovered (front ++ before) line := by
  obtain ⟨start, header, middle, rfl, hindicator, hbody⟩ := h
  exact ⟨front ++ start, header, middle, by simp, hindicator, hbody⟩

/-- A line among tidy ones is of their kind, unless a block scalar covers it. -/
theorem Tidy.of_not_isCovered (h : Tidy P lines) {before after : List (List Char)} {line : List Char}
    (hlines : lines = before ++ line :: after) (hcovered : ¬IsCovered before line) : P line := by
  -- The line stands among single lines, or in the body of a scalar, which would cover it.
  induction h generalizing before with
  | nil => simp at hlines
  | @line first rest h _ ih =>
    cases before with
    | nil =>
      cases hlines
      exact h
    | cons other before =>
      obtain ⟨rfl, hrest⟩ := List.cons.inj hlines
      exact ih hrest fun hcover => hcovered (hcover.append [_])
  | @scalar header body rest h hindicator hbody _ _ ih =>
    cases before with
    | nil =>
      cases hlines
      exact h
    | cons other before =>
      obtain ⟨rfl, hbehind⟩ := List.cons.inj hlines
      obtain ⟨middle, rfl, hrest⟩ | ⟨middle, rfl, hafter⟩ := List.append_eq_append_iff.1 hbehind
      · exact ih hrest fun hcover => hcovered (hcover.append (_ :: body))
      · cases middle with
        | nil =>
          have hrest : rest = [] ++ line :: after := hafter.symm
          exact ih hrest fun hcover => hcovered (by simpa using hcover.append (_ :: before))
        | cons other middle =>
          obtain ⟨rfl, -⟩ := List.cons.inj hafter
          refine absurd ⟨[], _, before, rfl, hindicator, fun other hother => hbody other ?_⟩ hcovered
          simp only [List.mem_append, List.mem_singleton] at hother
          obtain hother | rfl := hother <;> simp_all

end Tidy

end CloudTemplate.Shorthand
