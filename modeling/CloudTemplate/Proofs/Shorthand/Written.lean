import CloudTemplate.Proofs.Number.Numeral
import CloudTemplate.Proofs.Shorthand.FlowText
import CloudTemplate.Proofs.Shorthand.Reads
/-! Values that are written out: what is read in a collection becomes a text without shorthand. -/
namespace CloudTemplate.Shorthand

mutual

def Flow.all (plain : List Char → Bool) (tag : List Char → Flow → Bool) : Flow → Bool
  | .plain cs => plain cs
  | .quoted _ | .opened .. => true
  | .sequence items => items.all plain tag
  | .mapping pairs => pairs.all plain tag
  | .kept name value => tag name value && value.all plain tag
  | .call _ argument => argument.all plain tag
termination_by structural value => value

def Items.all (plain : List Char → Bool) (tag : List Char → Flow → Bool) : Items → Bool
  | .close _ => true
  | .last _ value _ => value.all plain tag
  | .more _ value _ rest => value.all plain tag && rest.all plain tag
termination_by structural items => items

def Pairs.all (plain : List Char → Bool) (tag : List Char → Flow → Bool) : Pairs → Bool
  | .close _ => true
  | .last _ key _ slot => plain key && slot.all plain tag
  | .more _ key _ slot rest => plain key && slot.all plain tag && rest.all plain tag
termination_by structural pairs => pairs

def Slot.all (plain : List Char → Bool) (tag : List Char → Flow → Bool) : Slot → Bool
  | .bare | .empty _ => true
  | .filled _ value _ => value.all plain tag
termination_by structural slot => slot

end

mutual

theorem Flow.all_true (value : Flow) : value.all (fun _ => true) (fun _ _ => true) = true := by
  cases value with
  | sequence items => exact items.all_true
  | mapping pairs => exact pairs.all_true
  | kept name value => exact value.all_true
  | call f argument => exact argument.all_true
  | _ => rfl

theorem Items.all_true (items : Items) : items.all (fun _ => true) (fun _ _ => true) = true := by
  cases items with
  | close => rfl
  | last before value after => exact value.all_true
  | more before value after rest => exact Bool.and_eq_true_iff.2 ⟨value.all_true, rest.all_true⟩

theorem Pairs.all_true (pairs : Pairs) : pairs.all (fun _ => true) (fun _ _ => true) = true := by
  cases pairs with
  | close => rfl
  | last before key gap slot => exact slot.all_true
  | more before key gap slot rest => exact Bool.and_eq_true_iff.2 ⟨slot.all_true, rest.all_true⟩

theorem Slot.all_true (slot : Slot) : slot.all (fun _ => true) (fun _ _ => true) = true := by
  cases slot with
  | filled before value after => exact value.all_true
  | _ => rfl

end

def isNameChar (c : Char) : Bool := c.isAlphanum || c == ':'

def isAdded (c : Char) : Bool := isNameChar c || c == '"' || c == '\\'

structure Grammar where
  admits : Char → Bool
  admits_added {c : Char} (h : isAdded c = true) : admits c = true
  IsValue : List Char → Prop
  IsItems : List Char → Prop
  IsPairs : List Char → Prop
  IsEntry : List Char → Prop
  keeps : List Char → Flow → Bool
  plain {cs : List Char} (h : IsPlain cs) (hover : ∀ c ∈ cs, admits c = true) : IsValue cs
  quoted {body : List Char} (h : staysQuoted body = true) (hover : ∀ c ∈ body, admits c = true) : IsValue (inQuotes body)
  tagged {name : List Char} {value : Flow} (htag : keeps ('!' :: '!' :: name) value = true)
    (hname : ∀ c ∈ name, isTagEnd c = false) (hover : ∀ c ∈ name, admits c = true) (h : IsValue value.fragment.text) :
    IsValue ('!' :: '!' :: (name ++ ' ' :: value.fragment.text))
  sequence {cs : List Char} (h : IsItems cs) : IsValue ('[' :: cs)
  mapping {cs : List Char} (h : IsPairs cs) : IsValue ('\x7b' :: cs)
  lastItem (before : Spacing) {cs : List Char} (h : IsValue cs) (after : Spacing) :
    IsItems (before.text ++ (cs ++ (after.text ++ [']'])))
  moreItems (before : Spacing) {cs : List Char} (h : IsValue cs) (after : Spacing) {rest : List Char}
    (hrest : IsItems rest) : IsItems (before.text ++ (cs ++ (after.text ++ ',' :: rest)))
  lastPair (before : Spacing) {cs : List Char} (h : IsEntry cs) : IsPairs (before.text ++ (cs ++ ['\x7d']))
  morePairs (before : Spacing) {cs : List Char} (h : IsEntry cs) {rest : List Char} (hrest : IsPairs rest) :
    IsPairs (before.text ++ (cs ++ ',' :: rest))
  bare {key gap : List Char} (h : IsKey key gap) (hover : ∀ c ∈ key, admits c = true)
    (hcolon : (key ++ gap).getLast? ≠ some ':') : IsEntry (key ++ gap)
  empty {key gap : List Char} (h : IsKey key gap) (hover : ∀ c ∈ key, admits c = true) (after : Spacing)
    (happart : isApart key after.text || after.text.isEmpty) : IsEntry (key ++ (gap ++ ':' :: after.text))
  filled {key gap : List Char} (h : IsKey key gap) (hover : ∀ c ∈ key, admits c = true) (after : Spacing)
    (happart : isApart key after.text = true) {cs : List Char} (hvalue : IsValue cs) (final : Spacing) :
    IsEntry (key ++ (gap ++ ':' :: (after.text ++ (cs ++ final.text))))

/-- Whether there is no line feed in a text. -/
theorem forall_ne_lineFeed_iff {cs : List Char} : (∀ c ∈ cs, (c != '\n') = true) ↔ '\n' ∉ cs :=
  ⟨fun h hmem => by simpa using h _ hmem, fun h c hc => bne_iff_ne.2 fun heq => h (heq ▸ hc)⟩

theorem ne_lineFeed_of_isAdded {c : Char} (h : isAdded c = true) : (c != '\n') = true := by
  rw [bne_iff_ne]
  rintro rfl
  contradiction

def Grammar.tags : Grammar where
  admits c := c != '\n'
  admits_added := ne_lineFeed_of_isAdded
  IsValue := FlowText true
  IsItems := ItemText true
  IsPairs := PairText true
  IsEntry := EntryText true
  keeps _ _ := true
  plain h hover := .plain h (forall_ne_lineFeed_iff.1 hover)
  quoted h hover := .quoted h (forall_ne_lineFeed_iff.1 hover)
  tagged _ hname hover h := .tagged rfl hname (forall_ne_lineFeed_iff.1 hover) h
  sequence := .sequence
  mapping := .mapping
  lastItem before _ h after := .last before h after
  moreItems before _ h after _ hrest := .more before h after hrest
  lastPair before _ h := .last before h
  morePairs before _ h _ hrest := .more before h hrest
  bare h hover hcolon := .bare (h.keyText (forall_ne_lineFeed_iff.1 hover)) hcolon
  empty h hover after happart := .empty (h.keyText (forall_ne_lineFeed_iff.1 hover)) after happart
  filled h hover after happart _ hvalue final :=
    .filled (h.keyText (forall_ne_lineFeed_iff.1 hover)) after happart hvalue final

variable (G : Grammar)

theorem Grammar.closeItems (gap : Spacing) : G.IsItems (gap.text ++ [']']) := by
  have hnil : IsPlain [] := ⟨rfl, rfl, by simp⟩
  simpa [noSpace] using G.lastItem gap (G.plain hnil (by simp)) noSpace

theorem Grammar.closePairs (gap : Spacing) : G.IsPairs (gap.text ++ ['\x7d']) := by
  have hnil : IsKey [] [] := .plain noSpace rfl rfl rfl
  simpa using G.lastPair gap (G.bare hnil (by simp) (by simp))

theorem staysQuoted_escaped (cs : List Char) :
    staysQuoted (cs.flatMap fun c => if c = '"' ∨ c = '\\' then ['\\', c] else [c]) = true := by
  induction cs with
  | nil => rfl
  | cons c cs ih =>
    rw [List.flatMap_cons]
    by_cases hc : c = '"' ∨ c = '\\'
    · rw [if_pos hc]
      exact ih
    · rw [if_neg hc]
      have hquote : c ≠ '"' := fun h => hc (.inl h)
      have hbackslash : c ≠ '\\' := fun h => hc (.inr h)
      rw [List.singleton_append, staysQuoted_cons hquote hbackslash, ih]

/-- What is put between quotes has the characters of the text and backslashes. -/
theorem forall_escaped {p : Char → Prop} (hbackslash : p '\\') {cs : List Char} (h : ∀ c ∈ cs, p c) :
    ∀ d ∈ cs.flatMap fun c => if c = '"' ∨ c = '\\' then ['\\', c] else [c], p d := by
  intro d hd
  obtain ⟨c, hc, hd⟩ := List.mem_flatMap.1 hd
  split at hd
  · obtain rfl | rfl : d = '\\' ∨ d = c := by simpa using hd
    · exact hbackslash
    · exact h d hc
  · rw [List.mem_singleton.1 hd]
    exact h c hc

theorem not_mem_escaped {d : Char} (hd : d ≠ '\\') {cs : List Char} (h : d ∉ cs) :
    d ∉ cs.flatMap fun c => if c = '"' ∨ c = '\\' then ['\\', c] else [c] :=
  fun hmem => forall_escaped (p := (d ≠ ·)) hd (fun _ hc heq => h (heq ▸ hc)) d hmem rfl

theorem Grammar.isValue_quote {cs : List Char} (h : ∀ c ∈ cs, G.admits c = true) : G.IsValue (quote cs) :=
  G.quoted (staysQuoted_escaped cs) (forall_escaped (G.admits_added rfl) h)

theorem Grammar.isValue_attributeList {cs : List Char} (h : ∀ c ∈ cs, G.admits c = true) :
    G.IsValue (attributeList cs) := by
  rw [attributeList]
  cases hsplit : splitPoint cs with
  | none => exact G.isValue_quote h
  | some parts =>
    obtain ⟨resource, name⟩ := parts
    rw [splitPoint_eq, Option.map_eq_some_iff] at hsplit
    obtain ⟨i, -, heq⟩ := hsplit
    obtain ⟨rfl, rfl⟩ := Prod.mk.inj heq
    have hresource : G.IsValue (quote (cs.take i)) := G.isValue_quote fun c hc => h c (List.mem_of_mem_take hc)
    have hname : G.IsValue (quote (cs.drop (i + 1))) := G.isValue_quote fun c hc => h c (List.mem_of_mem_drop hc)
    have hitems : G.IsItems (quote (cs.take i) ++ ',' :: ([' '] ++ (quote (cs.drop (i + 1)) ++ [']']))) :=
      G.moreItems noSpace hresource noSpace (G.lastItem oneSpace hname noSpace)
    simpa using G.sequence hitems

theorem isPlain_plainText {cs : List Char} (hgap : ∀ c ∈ cs.head?, Text.isGap c = false)
    (hopens : opensFlow cs = false) (hquote : cs.head? ≠ some '"') : IsPlain (plainText true cs) where
  starts := by
    have hinitial : plainText true cs <+: cs :=
      (Text.prefix_trimEnd _).trans (List.takeWhile_prefix _)
    cases htext : plainText true cs with
    | nil => rfl
    | cons c ds =>
      obtain ⟨rest, hcs⟩ := htext ▸ hinitial
      rw [← hcs] at hgap hopens hquote
      have hgap : Text.isGap c = false := hgap c rfl
      have hquote : c ≠ '"' := by simpa using hquote
      simp only [List.cons_append, opensFlow, Bool.or_eq_false_iff, beq_eq_false_iff_ne] at hopens
      obtain ⟨⟨hmark, hbracket⟩, hbrace⟩ := hopens
      simp [startsPlain, hgap, hmark, hbracket, hbrace, hquote]
  ends := Text.trimEnd_trimEnd _
  unbroken := by
    intro c hc
    have hc := List.mem_takeWhile_imp ((Text.prefix_trimEnd _).subset hc)
    simpa using hc

theorem isPlain_numeral {cs : List Char} (hends : Text.trimEnd cs = cs) (h : isNumeric cs = true) : IsPlain cs := by
  simp only [isNumeric, Bool.and_eq_true] at h
  have hchars := Number.isNumeralChar_of_readNumeral h.1
  refine ⟨?_, hends, fun c hc => ?_⟩
  · cases cs with
    | nil => rfl
    | cons c cs =>
      have hc := hchars c List.mem_cons_self
      have hne (d : Char) (hd : Number.isNumeralChar d = false) : c ≠ d := by
        intro heq
        subst heq
        rw [hd] at hc
        contradiction
      have hspace := hne ' ' rfl
      have htab := hne '\t' rfl
      have hmark := hne '!' rfl
      have hbracket := hne '[' rfl
      have hbrace := hne '\x7b' rfl
      have hquote := hne '"' rfl
      simp [startsPlain, Text.isGap, hspace, htab, hmark, hbracket, hbrace, hquote]
  · have hc := hchars c hc
    refine Bool.eq_false_iff.2 fun hend => ?_
    simp only [endsPlain, Bool.or_eq_true, beq_iff_eq] at hend
    obtain (rfl | rfl) | rfl := hend <;> contradiction

def stopsKey (c : Char) (cs : List Char) : Bool :=
  c == ':' && (endsSlot cs || cs.head? == some ' ') || c == ',' || c == '\x7d'

theorem plainKeyRun_cons (c : Char) (cs : List Char) :
    plainKeyRun (c :: cs) = if stopsKey c cs then [] else c :: plainKeyRun cs := by
  cases cs with
  | nil => rfl
  | cons d ds =>
    have hends : (endsSlot (d :: ds) || (d :: ds).head? == some ' ') = (d == ' ' || d == ',' || d == '\x7d') := by
      rw [endsSlot, List.head?_cons, Option.some_beq_some, Bool.or_comm, Bool.or_assoc]
    rw [stopsKey, hends]
    rfl

/-- A plain key ends before a comma, a closing brace, or a colon that ends it. -/
theorem plainKeyRun_append_rest (cs : List Char) :
    ∃ tail, cs = plainKeyRun cs ++ tail ∧ plainKeyRun tail = [] ∧ staysKey (plainKeyRun cs) = true ∧
      ((plainKeyRun cs).getLast? = some ':' → tail.head? = some ':') := by
  induction cs with
  | nil => exact ⟨[], rfl, rfl, rfl, by simp [plainKeyRun]⟩
  | cons c cs ih =>
    obtain ⟨tail, hcs, hstop, hstays, hlast⟩ := ih
    by_cases hc : stopsKey c cs = true
    · have hrun : plainKeyRun (c :: cs) = [] := by rw [plainKeyRun_cons, if_pos hc]
      exact ⟨c :: cs, by rw [hrun, List.nil_append], hrun, by rw [hrun]; rfl, by simp [hrun]⟩
    · have hrun : plainKeyRun (c :: cs) = c :: plainKeyRun cs := by rw [plainKeyRun_cons, if_neg hc]
      simp only [stopsKey, Bool.not_eq_true, Bool.or_eq_false_iff, beq_eq_false_iff_ne] at hc
      obtain ⟨⟨hcolon, hcomma⟩, hbrace⟩ := hc
      refine ⟨tail, by rw [hrun, List.cons_append, ← hcs], hstop, ?_, ?_⟩
      · rw [hrun, staysKey]
        · simp [hcomma, hbrace, hstays]
        · intro ds hc hds
          rw [hds, List.cons_append] at hcs
          simp [hc, hcs] at hcolon
      · rw [hrun]
        cases hkey : plainKeyRun cs with
        | cons d ds =>
          rw [hkey] at hlast
          exact hlast
        | nil =>
          intro hc
          have hc : c = ':' := by simpa using hc
          rw [hkey, List.nil_append] at hcs
          rw [← hcs]
          cases cs with
          | nil => simp [hc, endsSlot] at hcolon
          | cons d ds =>
            have hd : stopsKey d ds = true := by
              rw [plainKeyRun_cons] at hkey
              split at hkey
              · assumption
              · contradiction
            simp_all [stopsKey, endsSlot]

theorem isGap_of_afterGap {blanks tail rest : List Char} {e : Char} (hblanks : ∀ c ∈ blanks, Text.isBlank c = true)
    (hafter : afterGap (blanks ++ tail) = e :: rest) (he : Text.isBlank e = false) :
    ∀ c ∈ blanks, Text.isGap c = true := by
  induction blanks with
  | nil => simp
  | cons b blanks ih =>
    by_cases hb : Text.isGap b = true
    · have hrest : afterGap (blanks ++ tail) = e :: rest := by
        rw [← hafter, List.cons_append, afterGap, afterGap, List.dropWhile_cons_of_pos hb]
      have hspaces := ih (fun d hd => hblanks d (List.mem_cons_of_mem b hd)) hrest
      intro c hc
      cases hc with
      | head => exact hb
      | tail _ hc => exact hspaces c hc
    · rw [List.cons_append, afterGap_cons (by simpa using hb)] at hafter
      cases hafter
      rw [hblanks _ List.mem_cons_self] at he
      contradiction

theorem gapOf_of_plainKeyRun {cs : List Char} (h : plainKeyRun cs = []) : gapOf cs = [] := by
  cases cs with
  | nil => rfl
  | cons c cs =>
    rw [plainKeyRun_cons] at h
    split at h
    · rename_i hc
      simp only [stopsKey, Bool.or_eq_true, Bool.and_eq_true, beq_iff_eq] at hc
      obtain (⟨rfl, -⟩ | rfl) | rfl := hc <;> rfl
    · contradiction

/-- A plain key with its spacing. -/
theorem isKey_plainKey {cs rest : List Char} {e : Char} (hquote : cs.head? ≠ some '"')
    (hstart : ∀ c ∈ cs.head?, Text.isGap c = false)
    (hafter : afterGap (cs.drop (plainKey cs).length) = e :: rest) (he : Text.isBlank e = false) :
    IsKey (plainKey cs) (gapOf (cs.drop (plainKey cs).length)) ∧ plainKeyRun (e :: rest) = [] ∧
      ((plainKey cs ++ gapOf (cs.drop (plainKey cs).length)).getLast? = some ':' → e = ':') := by
  obtain ⟨tail, hcs, hstop, hstays, hlast⟩ := plainKeyRun_append_rest cs
  obtain ⟨blanks, hrun, hblanks⟩ := Text.exists_trimEnd_append (plainKeyRun cs)
  rw [← plainKey] at hrun
  have hdrop : cs.drop (plainKey cs).length = blanks ++ tail := by
    have hfront : cs = plainKey cs ++ (blanks ++ tail) := by rw [← List.append_assoc, hrun, ← hcs]
    rw [hfront, List.drop_left' (by rw [← hfront])]
  rw [hdrop] at hafter ⊢
  have hspaces := isGap_of_afterGap hblanks hafter he
  have htail := gapOf_of_plainKeyRun hstop
  rw [afterGap_append hspaces] at hafter
  rw [gapOf_append hspaces, htail, List.append_nil]
  have hrest : tail = e :: rest := by
    rw [← hafter, ← List.nil_append (afterGap tail), ← htail]
    exact (List.takeWhile_append_dropWhile).symm
  rw [← hrest, hrun]
  refine ⟨.plain ⟨blanks, hspaces⟩ ?_ (Text.trimEnd_trimEnd _) (hrun ▸ hstays), hstop, fun hcolon => ?_⟩
  · rw [hrun]
    cases hkey : plainKeyRun cs with
    | nil => rfl
    | cons d ds =>
      rw [hkey] at hcs
      rw [hcs] at hstart hquote
      have hd : Text.isGap d = false := hstart d rfl
      have hne : d ≠ '"' := by simpa using hquote
      simp [hd, hne]
  · have hcolon := hlast hcolon
    rw [hrest] at hcolon
    simpa using hcolon

/-- A key with its spacing, up to a character that is neither. -/
theorem isKey_of_keyAt {cs key afterKey rest : List Char} {e : Char} (h : keyAt cs = .ok (key, afterKey))
    (hstart : ∀ c ∈ cs.head?, Text.isGap c = false) (hafter : afterGap afterKey = e :: rest)
    (he : Text.isBlank e = false) :
    IsKey key (gapOf afterKey) ∧ (key.head? ≠ some '"' → plainKeyRun (e :: rest) = []) ∧
      ((key ++ gapOf afterKey).getLast? = some ':' → e = ':') := by
  by_cases hquote : cs.head? = some '"'
  · obtain ⟨body, rfl⟩ := List.head?_eq_some_iff.1 hquote
    rw [keyAt_quote] at h
    split at h
    · contradiction
    · rename_i text left hclose
      cases h
      obtain ⟨hstays, rfl⟩ := closeQuote_ok hclose
      have hgap : ∀ c ∈ gapOf afterKey, Text.isGap c = true := fun c hc => List.mem_takeWhile_imp hc
      refine ⟨.quoted hstays ⟨gapOf afterKey, hgap⟩, fun hne => absurd rfl hne, fun hlast => ?_⟩
      rw [List.append_assoc, List.singleton_append, List.getLast?_append_of_ne_nil _ (List.cons_ne_nil _ _)] at hlast
      cases List.mem_of_getLast? hlast with
      | tail _ hcolon => exact absurd (hgap ':' hcolon) (by decide)
  · rw [keyAt_plain hquote] at h
    cases h
    obtain ⟨htext, hstop, hcolon⟩ := isKey_plainKey hquote hstart hafter he
    exact ⟨htext, fun _ => hstop, hcolon⟩

theorem isNameChar_of_mem_longName {f : Intrinsic} {c : Char} (h : c ∈ f.longName.toList) : isNameChar c = true := by
  have hall : f.longName.toList.all isNameChar = true := by cases f <;> rfl
  exact List.all_eq_true.1 hall c h

theorem staysQuoted_eq_true {cs : List Char} (hquote : '"' ∉ cs) (hbackslash : '\\' ∉ cs) : staysQuoted cs = true := by
  induction cs with
  | nil => rfl
  | cons c cs ih =>
    obtain ⟨hc, hcs⟩ := List.ne_and_not_mem_of_not_mem_cons hquote
    obtain ⟨hc', hcs'⟩ := List.ne_and_not_mem_of_not_mem_cons hbackslash
    rw [staysQuoted_cons hc.symm hc'.symm, ih hcs hcs']

def callBody (name : String) (argument : List Char) : List Char :=
  ' ' :: (inQuotes name.toList ++ ' ' :: ':' :: ' ' :: (argument ++ [' ', '\x7d']))

theorem callText_eq (name : String) (argument : Fragment) :
    callText name argument = '\x7b' :: callBody name (argumentText name argument) := by
  simp [callText, callBody, inQuotes]

theorem staysQuoted_name {name : String} (hname : ∀ c ∈ name.toList, isNameChar c = true) :
    staysQuoted name.toList = true :=
  staysQuoted_eq_true (fun h => absurd (hname _ h) (by decide)) fun h => absurd (hname _ h) (by decide)

theorem Grammar.isPairs_callBody {name : String} (hname : ∀ c ∈ name.toList, isNameChar c = true) {argument : List Char}
    (h : G.IsValue argument) : G.IsPairs (callBody name argument) := by
  have hkey : IsKey (inQuotes name.toList) [' '] := .quoted (staysQuoted_name hname) oneSpace
  have hover : ∀ c ∈ inQuotes name.toList, G.admits c = true := by
    intro c hc
    obtain rfl | hc | rfl : c = '"' ∨ c ∈ name.toList ∨ c = '"' := by simpa [inQuotes] using hc
    · exact G.admits_added rfl
    · exact G.admits_added (by simp [isAdded, hname c hc])
    · exact G.admits_added rfl
  have hentry : G.IsEntry (inQuotes name.toList ++ ([' '] ++ ':' :: ([' '] ++ (argument ++ [' '])))) :=
    G.filled hkey hover oneSpace rfl h oneSpace
  simpa [callBody, oneSpace] using G.lastPair oneSpace hentry

theorem Grammar.isValue_plainArgument (name : String) {cs : List Char} (hover : ∀ c ∈ cs, G.admits c = true) :
    G.IsValue (argumentText name (.plain cs)) := by
  have htrim : ∀ c ∈ Text.trim cs, G.admits c = true := fun c hc =>
    hover c ((List.dropWhile_sublist _).subset ((Text.prefix_trimEnd _).subset hc))
  simp only [argumentText]
  split
  · exact G.isValue_attributeList htrim
  · split
    · rename_i hnumeric
      exact G.plain (isPlain_numeral (Text.trimEnd_trimEnd _) hnumeric) htrim
    · exact G.isValue_quote htrim

theorem Grammar.isValue_quotedArgument (name : String) {cs : List Char} (h : staysQuoted cs = true)
    (hover : ∀ c ∈ cs, G.admits c = true) : G.IsValue (argumentText name (.quoted cs)) := by
  simp only [argumentText]
  split
  · exact G.isValue_attributeList hover
  · exact G.quoted h hover

variable {G}

def Fragment.IsWritten (G : Grammar) : Fragment → Prop
  | .plain cs => IsPlain cs ∧ ∀ c ∈ cs, G.admits c = true
  | .quoted cs => staysQuoted cs = true ∧ ∀ c ∈ cs, G.admits c = true
  | .structured cs => G.IsValue cs
  | .waiting .. => False

namespace Fragment.IsWritten

variable {fragment : Fragment}

theorem isValue (h : fragment.IsWritten G) : G.IsValue fragment.text := by
  cases fragment with
  | plain cs => exact G.plain h.1 h.2
  | quoted cs => exact G.quoted h.1 h.2
  | structured cs => exact h
  | waiting => contradiction

theorem isValue_argumentText (h : fragment.IsWritten G) (name : String) : G.IsValue (argumentText name fragment) := by
  cases fragment with
  | plain cs => exact G.isValue_plainArgument name h.2
  | quoted cs => exact G.isValue_quotedArgument name h.1 h.2
  | structured cs => exact h
  | waiting => contradiction

theorem applyName (h : fragment.IsWritten G) {name : String} (hname : ∀ c ∈ name.toList, isNameChar c = true) :
    (applyName name fragment).IsWritten G := by
  have hcall : G.IsValue (callText name fragment) := by
    rw [callText_eq]
    exact G.mapping (G.isPairs_callBody hname (h.isValue_argumentText name))
  cases fragment with
  | waiting => contradiction
  | _ => exact hcall

end Fragment.IsWritten

theorem not_mem_of_suffix {cs ds : List Char} (h : cs <:+ ds) (hline : '\n' ∉ ds) : '\n' ∉ cs :=
  fun hmem => hline (h.subset hmem)

theorem forall_of_suffix {p : Char → Prop} {cs ds : List Char} (h : cs <:+ ds) (hover : ∀ c ∈ ds, p c) :
    ∀ c ∈ cs, p c :=
  fun c hc => hover c (h.subset hc)

theorem afterGap_suffix (cs : List Char) : afterGap cs <:+ cs := List.dropWhile_suffix _

section Tags

variable {cs rest : List Char}

theorem isTagEnd_of_mem {c : Char} (h : c ∈ rest.takeWhile fun c => !isTagEnd c) : isTagEnd c = false := by
  simpa using List.mem_takeWhile_imp h

theorem afterTag_suffix (h : afterGap cs = '!' :: '!' :: rest) : (rest.dropWhile fun c => !isTagEnd c) <:+ cs := by
  have hafter := afterGap_suffix cs
  rw [h] at hafter
  exact (List.dropWhile_suffix _).trans ((List.suffix_cons _ _).trans ((List.suffix_cons _ _).trans hafter))

theorem afterName_suffix (h : afterGap cs = '!' :: rest) : afterName rest <:+ cs := by
  have hafter := afterGap_suffix cs
  rw [h] at hafter
  exact (afterGap_suffix _).trans ((List.dropWhile_suffix _).trans ((List.suffix_cons _ _).trans hafter))

end Tags

theorem isGap_head_afterGap (cs : List Char) : ∀ c ∈ (afterGap cs).head?, Text.isGap c = false := by
  intro c hc
  have hhead := List.head?_dropWhile_not Text.isGap cs
  rw [← afterGap, hc] at hhead
  exact hhead

theorem plainKey_append_drop (cs : List Char) : plainKey cs ++ cs.drop (plainKey cs).length = cs := by
  obtain ⟨tail, hcs, -⟩ := plainKeyRun_append_rest cs
  have hinitial : plainKey cs <+: cs := (Text.prefix_trimEnd _).trans ⟨tail, hcs.symm⟩
  exact List.prefix_iff_eq_append.1 hinitial

theorem keyAt_append_rest {cs key after : List Char} (h : keyAt cs = .ok (key, after)) : key ++ after = cs := by
  by_cases hquote : cs.head? = some '"'
  · obtain ⟨body, rfl⟩ := List.head?_eq_some_iff.1 hquote
    rw [keyAt_quote] at h
    split at h
    · contradiction
    · rename_i text left hclose
      cases h
      rw [(closeQuote_ok hclose).2]
      simp
  · rw [keyAt_plain hquote] at h
    cases h
    exact plainKey_append_drop cs

theorem keyAt_suffix {cs key after : List Char} (h : keyAt cs = .ok (key, after)) : after <:+ cs :=
  ⟨key, keyAt_append_rest h⟩

/-- What a slot that ends before a comma or a brace starts with. -/
theorem slotAt_cons {cs rest : List Char} {slot : Slot} {d : Char} (h : slotAt cs = .ok (slot, d :: rest))
    (hd : Text.isBlank d = false) : ∃ e tail, cs = e :: tail ∧ Text.isBlank e = false := by
  cases slotAt_ok h with
  | bare => exact ⟨d, rest, rfl, hd⟩
  | empty => exact ⟨':', _, rfl, by decide⟩
  | filled => exact ⟨':', _, rfl, by decide⟩

/-- Behind the colon that ends a key there is a space, or the slot is over. -/
theorem isApart_gapOf {key cs : List Char} (h : key.head? ≠ some '"' → plainKeyRun (':' :: cs) = []) :
    isApart key (gapOf cs) = true ∨ gapOf cs = [] ∧ endsSlot (afterGap cs) = true := by
  by_cases hquote : key.head? = some '"'
  · exact .inl (by simp [isApart, hquote])
  · have hstop := h hquote
    rw [plainKeyRun_cons] at hstop
    split at hstop
    · rename_i hc
      cases cs with
      | nil => exact .inr ⟨rfl, rfl⟩
      | cons d ds =>
        have hd : d = ',' ∨ d = '\x7d' ∨ d = ' ' := by simpa [stopsKey, endsSlot, or_assoc] using hc
        obtain rfl | rfl | rfl := hd
        · exact .inr ⟨rfl, rfl⟩
        · exact .inr ⟨rfl, rfl⟩
        · exact .inl (by simp [isApart, gapOf, Text.isGap])
    · contradiction

def spacingOf (cs : List Char) : Spacing := ⟨gapOf cs, fun _ hc => List.mem_takeWhile_imp hc⟩

@[simp] theorem text_spacingOf (cs : List Char) : (spacingOf cs).text = gapOf cs := rfl

theorem suffix_of_afterGap {cs rest : List Char} {d : Char} (h : afterGap cs = d :: rest) : rest <:+ cs :=
  (List.suffix_cons d rest).trans (h ▸ afterGap_suffix cs)

mutual

/-- What a reading leaves is the end of its text. -/
theorem Flow.suffix (value : Flow) {inFlow : Bool} {cs left : List Char} (h : flowAt inFlow cs = .ok (value, left)) :
    left <:+ cs := by
  cases value with
  | plain text =>
    cases flowAt_ok h with
    | nothing => exact List.nil_suffix
    | plain => exact (List.drop_suffix _ _).trans (afterGap_suffix cs)
  | quoted text =>
    cases flowAt_ok h with
    | @quoted rest _ _ hcs hclose =>
      have hrest : left <:+ rest := ⟨text ++ ['"'], by simp [(closeQuote_ok hclose).2]⟩
      exact hrest.trans (suffix_of_afterGap hcs)
  | sequence items =>
    cases flowAt_ok h with
    | sequence hcs hread => exact (items.suffix hread).trans (suffix_of_afterGap hcs)
  | mapping pairs =>
    cases flowAt_ok h with
    | mapping hcs hread => exact (pairs.suffix hread).trans (suffix_of_afterGap hcs)
  | kept tag inner =>
    cases flowAt_ok h with
    | kept hcs hread => exact (inner.suffix hread).trans (afterTag_suffix hcs)
  | call f argument =>
    cases flowAt_ok h with
    | call _ hcs hread => exact (argument.suffix hread).trans (afterName_suffix hcs)
  | opened f indicator =>
    cases flowAt_ok h with
    | opened => exact List.nil_suffix
    | announced => exact List.nil_suffix

theorem Items.suffix (items : Items) {cs left : List Char} (h : itemsAt cs = .ok (items, left)) : left <:+ cs := by
  cases items with
  | close gap =>
    cases itemsAt_ok h with
    | close hcs => exact suffix_of_afterGap hcs
  | last before value after =>
    cases itemsAt_ok h with
    | last hread hafter => exact (suffix_of_afterGap hafter).trans ((value.suffix hread).trans (afterGap_suffix cs))
  | more before value after others =>
    cases itemsAt_ok h with
    | more hread hafter hothers =>
      have hrest := (suffix_of_afterGap hafter).trans ((value.suffix hread).trans (afterGap_suffix cs))
      exact (others.suffix hothers).trans hrest

theorem Pairs.suffix (pairs : Pairs) {cs left : List Char} (h : pairsAt cs = .ok (pairs, left)) : left <:+ cs := by
  cases pairs with
  | close gap =>
    cases pairsAt_ok h with
    | close hcs => exact suffix_of_afterGap hcs
  | last before key gap slot =>
    cases pairsAt_ok h with
    | last hkey hslot => exact (List.suffix_cons _ _).trans (slot.suffix_of_keyAt hkey hslot)
  | more before key gap slot others =>
    cases pairsAt_ok h with
    | more hkey hslot hothers =>
      exact (others.suffix hothers).trans ((List.suffix_cons _ _).trans (slot.suffix_of_keyAt hkey hslot))

theorem Slot.suffix_of_keyAt (slot : Slot) {cs key afterKey left : List Char}
    (hkey : keyAt (afterGap cs) = .ok (key, afterKey)) (h : slotAt (afterGap afterKey) = .ok (slot, left)) : left <:+ cs := by
  have hfront := (afterGap_suffix afterKey).trans ((keyAt_suffix hkey).trans (afterGap_suffix cs))
  generalize afterGap afterKey = ds at h hfront
  cases slot with
  | bare =>
    cases slotAt_ok h with
    | bare => exact hfront
  | empty gap =>
    cases slotAt_ok h with
    | empty _ hleft => exact hleft ▸ (afterGap_suffix _).trans ((List.suffix_cons _ _).trans hfront)
  | filled before value final =>
    cases slotAt_ok h with
    | filled _ hread hleft =>
      have hvalue := (value.suffix hread).trans ((afterGap_suffix _).trans ((List.suffix_cons _ _).trans hfront))
      exact hleft ▸ (afterGap_suffix _).trans hvalue

end

mutual

theorem Flow.isWritten (value : Flow) {plain : List Char → Bool} {cs left : List Char}
    (h : flowAt true cs = .ok (value, left))
    (hover : ∀ c ∈ cs, G.admits c = true) (hall : value.all plain G.keeps = true) : value.fragment.IsWritten G := by
  have hafter := forall_of_suffix (afterGap_suffix cs) hover
  cases value with
  | plain text =>
    cases flowAt_ok h with
    | nothing => exact ⟨⟨rfl, rfl, by simp⟩, by simp⟩
    | plain hne hopens hquote =>
      refine ⟨isPlain_plainText (isGap_head_afterGap cs) hopens hquote, fun c hc => hafter c ?_⟩
      exact (List.takeWhile_sublist _).subset ((Text.prefix_trimEnd _).subset hc)
  | quoted text =>
    cases flowAt_ok h with
    | quoted hcs hclose =>
      obtain ⟨hstays, hrest⟩ := closeQuote_ok hclose
      rw [hcs, hrest] at hafter
      exact ⟨hstays, fun c hc => hafter c (by simp [hc])⟩
  | sequence items =>
    cases flowAt_ok h with
    | sequence hcs hread =>
      exact G.sequence (items.isWritten hread (forall_of_suffix (suffix_of_afterGap hcs) hover) hall)
  | mapping pairs =>
    cases flowAt_ok h with
    | mapping hcs hread =>
      exact G.mapping (pairs.isWritten hread (forall_of_suffix (suffix_of_afterGap hcs) hover) hall)
  | kept tag inner =>
    cases flowAt_ok h with
    | @kept rest _ _ hcs hread =>
      obtain ⟨htag, hall⟩ := Bool.and_eq_true_iff.1 hall
      have hinner := inner.isWritten hread (forall_of_suffix (afterTag_suffix hcs) hover) hall
      refine G.tagged htag (fun c hc => isTagEnd_of_mem hc) (fun c hc => hafter c ?_) hinner.isValue
      rw [hcs]
      simp [(List.takeWhile_sublist _).subset hc]
  | call f argument =>
    cases flowAt_ok h with
    | @call rest _ _ _ hcs hread =>
      have hargument := argument.isWritten hread (forall_of_suffix (afterName_suffix hcs) hover) hall
      exact hargument.applyName fun c hc => isNameChar_of_mem_longName hc
  | opened f indicator =>
    cases flowAt_ok h with
    | opened _ _ hflow => contradiction
    | announced _ _ hflow => contradiction

theorem Items.isWritten (items : Items) {plain : List Char → Bool} {cs left : List Char}
    (h : itemsAt cs = .ok (items, left))
    (hover : ∀ c ∈ cs, G.admits c = true) (hall : items.all plain G.keeps = true) : G.IsItems items.text := by
  have hafter := forall_of_suffix (afterGap_suffix cs) hover
  cases items with
  | close gap =>
    cases itemsAt_ok h with
    | close => exact G.closeItems (spacingOf cs)
  | last before value after =>
    cases itemsAt_ok h with
    | @last _ after' _ hread hleft =>
      have hvalue := value.isWritten hread hafter hall
      simpa [Items.text] using G.lastItem (spacingOf cs) hvalue.isValue (spacingOf after')
  | more before value after rest =>
    cases itemsAt_ok h with
    | @more _ after' _ _ _ hread hleft hitems =>
      obtain ⟨hall, hallRest⟩ := Bool.and_eq_true_iff.1 hall
      have hvalue := value.isWritten hread hafter hall
      have hbehind := (suffix_of_afterGap hleft).trans (value.suffix hread)
      have hothers := rest.isWritten hitems (forall_of_suffix hbehind hafter) hallRest
      simpa [Items.text] using G.moreItems (spacingOf cs) hvalue.isValue (spacingOf after') hothers

theorem Pairs.isWritten (pairs : Pairs) {plain : List Char → Bool} {cs left : List Char}
    (h : pairsAt cs = .ok (pairs, left))
    (hover : ∀ c ∈ cs, G.admits c = true) (hall : pairs.all plain G.keeps = true) : G.IsPairs pairs.text := by
  have hafter := forall_of_suffix (afterGap_suffix cs) hover
  cases pairs with
  | close gap =>
    cases pairsAt_ok h with
    | close => exact G.closePairs (spacingOf cs)
  | last before key gap slot =>
    cases pairsAt_ok h with
    | last hkey hslot =>
      obtain ⟨-, hall⟩ := Bool.and_eq_true_iff.1 hall
      have hentry := slot.isWritten hkey (isGap_head_afterGap cs) hafter hslot (by decide) hall
      simpa [Pairs.text] using G.lastPair (spacingOf cs) hentry
  | more before key gap slot rest =>
    cases pairsAt_ok h with
    | more hkey hslot hpairs =>
      obtain ⟨hentryAll, hallRest⟩ := Bool.and_eq_true_iff.1 hall
      obtain ⟨-, hall⟩ := Bool.and_eq_true_iff.1 hentryAll
      have hentry := slot.isWritten hkey (isGap_head_afterGap cs) hafter hslot (by decide) hall
      have hbehind := (List.suffix_cons _ _).trans (slot.suffix_of_keyAt hkey hslot)
      have hothers := rest.isWritten hpairs (forall_of_suffix hbehind hover) hallRest
      simpa [Pairs.text] using G.morePairs (spacingOf cs) hentry hothers

theorem Slot.isWritten (slot : Slot) {plain : List Char → Bool} {cs key afterKey rest : List Char} {d : Char}
    (hkey : keyAt cs = .ok (key, afterKey)) (hstart : ∀ c ∈ cs.head?, Text.isGap c = false)
    (hover : ∀ c ∈ cs, G.admits c = true) (h : slotAt (afterGap afterKey) = .ok (slot, d :: rest))
    (hd : Text.isBlank d = false) (hall : slot.all plain G.keeps = true) :
    G.IsEntry (key ++ (gapOf afterKey ++ slot.text)) := by
  have hafter := forall_of_suffix ((afterGap_suffix afterKey).trans (keyAt_suffix hkey)) hover
  have hkeyOver : ∀ c ∈ key, G.admits c = true := fun c hc =>
    hover c (keyAt_append_rest hkey ▸ List.mem_append_left afterKey hc)
  obtain ⟨e, tail, hcs, he⟩ := slotAt_cons h hd
  obtain ⟨hisKey, hstop, hlast⟩ := isKey_of_keyAt hkey hstart hcs he
  rw [hcs] at h hafter
  cases slot with
  | bare =>
    cases slotAt_ok h with
    | bare hcolon => simpa [Slot.text] using G.bare hisKey hkeyOver fun h => hcolon (by rw [hlast h]; rfl)
  | empty gap =>
    cases slotAt_ok h with
    | empty hends hleft =>
      have happart : isApart key (spacingOf tail).text || (spacingOf tail).text.isEmpty := by
        obtain h | h := isApart_gapOf hstop
        · exact Bool.or_eq_true_iff.2 (.inl h)
        · exact Bool.or_eq_true_iff.2 (.inr (by rw [text_spacingOf, h.1]; rfl))
      simpa [Slot.text] using G.empty hisKey hkeyOver (spacingOf tail) happart
  | filled before value final =>
    cases slotAt_ok h with
    | @filled _ after _ _ hends hread hleft =>
      have hvalue := value.isWritten hread
        (forall_of_suffix ((afterGap_suffix tail).trans (List.suffix_cons _ _)) hafter) hall
      have happart : isApart key (spacingOf tail).text = true := by
        obtain h | h := isApart_gapOf hstop
        · exact h
        · rw [h.2] at hends
          contradiction
      simpa [Slot.text] using G.filled hisKey hkeyOver (spacingOf tail) happart hvalue.isValue (spacingOf after)

end

end CloudTemplate.Shorthand
