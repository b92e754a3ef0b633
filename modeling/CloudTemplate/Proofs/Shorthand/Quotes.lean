import CloudTemplate.Proofs.Shorthand.Untagged
/-! Quoted strings behind a key. Every single quote of a line becomes a double quote, within strings as well as around
them, so a string is kept only if it holds no single quote and, between single quotes, nothing that double quotes would
take for an escape or an end. -/
namespace CloudTemplate.Shorthand

def unescape : List Char → List Char
  | [] => []
  | ['\\'] => ['\\']
  | '\\' :: c :: cs => if c = '"' ∨ c = '\\' then c :: unescape cs else '\\' :: c :: unescape cs
  | c :: cs => c :: unescape cs

/-- Whether a text is one double-quoted scalar from its first quote to its last, and which string it denotes. -/
def Denotes (scalar s : List Char) : Prop := ∃ body, scalar = inQuotes body ∧ staysQuoted body = true ∧ unescape body = s

def singleQuote (s : List Char) : List Char :=
  '\'' :: (s.flatMap fun c => if c = '\'' then ['\'', '\''] else [c]) ++ ['\'']

theorem denotes_inQuotes {body s : List Char} : Denotes (inQuotes body) s ↔ staysQuoted body = true ∧ unescape body = s := by
  constructor
  · rintro ⟨other, hother, h⟩
    obtain rfl : body = other := by simpa [inQuotes] using hother
    exact h
  · exact fun h => ⟨body, rfl, h⟩

theorem unescape_cons {c : Char} (hc : c ≠ '\\') (cs : List Char) : unescape (c :: cs) = c :: unescape cs := by
  rw [unescape]
  · exact fun h => absurd h hc
  · exact fun _ _ h => absurd h hc

theorem length_unescape_le (cs : List Char) : (unescape cs).length ≤ cs.length := by
  fun_induction unescape cs with
  | case1 => exact le_refl _
  | case2 => exact le_refl _
  | case3 c cs _ ih => exact Nat.succ_le_succ (Nat.le_succ_of_le ih)
  | case4 c cs _ ih => exact Nat.succ_le_succ (Nat.succ_le_succ ih)
  | case5 c cs _ _ ih => exact Nat.succ_le_succ ih

def escaped (s : List Char) : List Char := s.flatMap fun c => if c = '"' ∨ c = '\\' then ['\\', c] else [c]

theorem unescape_escaped (s : List Char) : unescape (escaped s) = s := by
  induction s with
  | nil => rfl
  | cons c s ih =>
    rw [escaped, List.flatMap_cons, ← escaped]
    by_cases hc : c = '"' ∨ c = '\\'
    · rw [if_pos hc, List.cons_append, List.singleton_append, unescape, if_pos hc, ih]
    · rw [if_neg hc, List.singleton_append, unescape_cons (fun h => hc (.inr h)), ih]

/-- A single quote in a string ends it once it is a double one, since no backslash stands before it. -/
theorem staysQuoted_doubleQuotes_escaped (s : List Char) : staysQuoted (doubleQuotes (escaped s)) = true ↔ '\'' ∉ s := by
  induction s with
  | nil => simp [escaped, doubleQuotes, staysQuoted]
  | cons c s ih =>
    rw [List.mem_cons, not_or, ← ih]
    by_cases hescape : c = '"' ∨ c = '\\'
    · have hkept : c ≠ '\'' := by rintro rfl; simp at hescape
      have hcons : doubleQuotes (escaped (c :: s)) = '\\' :: c :: doubleQuotes (escaped s) := by
        simp [escaped, doubleQuotes, hescape, hkept]
      rw [hcons]
      exact (and_iff_right hkept.symm).symm
    · have hcons : doubleQuotes (escaped (c :: s)) = (if c = '\'' then '"' else c) :: doubleQuotes (escaped s) := by
        simp [escaped, doubleQuotes, hescape]
      rw [hcons]
      by_cases hsingle : c = '\''
      · simp [hsingle, staysQuoted]
      · obtain ⟨hquote, hbackslash⟩ := not_or.1 hescape
        rw [if_neg hsingle, staysQuoted_cons hquote hbackslash]
        exact (and_iff_right (Ne.symm hsingle)).symm

theorem denotes_quote (s : List Char) : Denotes (doubleQuotes (quote s)) s ↔ '\'' ∉ s := by
  have hquotes : doubleQuotes (quote s) = inQuotes (doubleQuotes (escaped s)) := by
    simp [quote, inQuotes, doubleQuotes, escaped]
  rw [hquotes, denotes_inQuotes, staysQuoted_doubleQuotes_escaped]
  refine ⟨And.left, fun h => ⟨h, ?_⟩⟩
  have hkept : '\'' ∉ escaped s := not_mem_escaped (by decide) h
  rw [doubleQuotes_of_not_mem hkept, unescape_escaped]

/-- Whether double quotes take a text as it is: it holds no quote, and no backslash before another or at the end. -/
structure IsLiteral (s : List Char) : Prop where
  noSingle : '\'' ∉ s
  noDouble : '"' ∉ s
  noPair : ¬['\\', '\\'] <:+: s
  noEnd : s.getLast? ≠ some '\\'

/-- Of two quotes in a row the second ends the text. -/
theorem staysQuoted_pair (front back : List Char) : staysQuoted (front ++ '"' :: '"' :: back) = false := by
  induction front using escapeInduction with
  | nil => rfl
  | last => rfl
  | quote cs => rfl
  | pair c cs ih => exact ih
  | plain c cs hquote hbackslash ih => rw [List.cons_append, staysQuoted_cons hquote hbackslash, ih]

section Backslashes

variable {c : Char} (hc : c ≠ '\\') (cs : List Char)

include hc

theorem pair_infix_cons_iff : ['\\', '\\'] <:+: c :: cs ↔ ['\\', '\\'] <:+: cs := by
  rw [List.infix_cons_iff, List.cons_prefix_cons]
  exact or_iff_right fun h => hc h.1.symm

theorem getLast?_cons_eq_backslash_iff : (c :: cs).getLast? = some '\\' ↔ cs.getLast? = some '\\' := by
  rw [List.getLast?_cons]
  cases cs.getLast? <;> simp [hc]

theorem pair_infix_escape_iff : ['\\', '\\'] <:+: '\\' :: c :: cs ↔ ['\\', '\\'] <:+: cs := by
  rw [List.infix_cons_iff, List.cons_prefix_cons, List.cons_prefix_cons, pair_infix_cons_iff hc]
  exact or_iff_right fun h => hc h.2.1.symm

end Backslashes

/-- The texts that double quotes take as they are. -/
theorem unescape_eq_self_iff (s : List Char) :
    staysQuoted s = true ∧ unescape s = s ↔ '"' ∉ s ∧ ¬['\\', '\\'] <:+: s ∧ s.getLast? ≠ some '\\' := by
  induction s using escapeInduction with
  | nil => simp [staysQuoted, unescape]
  | last => simp [staysQuoted]
  | quote cs => exact iff_of_false (fun h => Bool.false_ne_true h.1) fun h => h.1 List.mem_cons_self
  | pair c cs ih =>
    have hstays : staysQuoted ('\\' :: c :: cs) = staysQuoted cs := rfl
    by_cases hescape : c = '"' ∨ c = '\\'
    · -- The escape is undone, so the text gets shorter.
      have hshorter : unescape ('\\' :: c :: cs) ≠ '\\' :: c :: cs := by
        intro h
        have hlength := congrArg List.length h
        rw [unescape, if_pos hescape] at hlength
        have hle := length_unescape_le cs
        simp only [List.length_cons] at hlength
        omega
      refine iff_of_false (fun h => hshorter h.2) ?_
      rintro ⟨hquote, hpair, -⟩
      obtain rfl | rfl := hescape
      · simp at hquote
      · exact hpair ⟨[], cs, rfl⟩
    · have hkept : unescape ('\\' :: c :: cs) = '\\' :: c :: unescape cs := by rw [unescape, if_neg hescape]
      obtain ⟨hquote, hbackslash⟩ := not_or.1 hescape
      rw [hstays, hkept, pair_infix_escape_iff hbackslash, List.getLast?_cons_cons,
        ne_eq, getLast?_cons_eq_backslash_iff hbackslash]
      simpa [Ne.symm hquote] using ih
  | plain c cs hquote hbackslash ih =>
    rw [staysQuoted_cons hquote hbackslash, unescape_cons hbackslash, pair_infix_cons_iff hbackslash, ne_eq,
      getLast?_cons_eq_backslash_iff hbackslash]
    simpa [Ne.symm hquote] using ih

theorem denotes_singleQuote (s : List Char) : Denotes (doubleQuotes (singleQuote s)) s ↔ IsLiteral s := by
  have hbody : doubleQuotes (singleQuote s) =
      inQuotes (s.flatMap fun c => if c = '\'' then ['"', '"'] else [c]) := by
    have hchar (c : Char) : (if c = '\'' then ['\'', '\''] else [c]).map (fun c => if c = '\'' then '"' else c) =
        if c = '\'' then ['"', '"'] else [c] := by split <;> simp [*]
    simp [doubleQuotes, singleQuote, inQuotes, List.map_flatMap, hchar]
  rw [hbody, denotes_inQuotes]
  by_cases hsingle : '\'' ∈ s
  · obtain ⟨front, back, rfl⟩ := List.append_of_mem hsingle
    have hends : staysQuoted ((front ++ '\'' :: back).flatMap fun c => if c = '\'' then ['"', '"'] else [c]) = false := by
      rw [List.flatMap_append, List.flatMap_cons, if_pos rfl]
      exact staysQuoted_pair _ _
    exact iff_of_false (fun h => Bool.false_ne_true (hends.symm.trans h.1)) fun h => h.noSingle hsingle
  · have hkept : (s.flatMap fun c => if c = '\'' then ['"', '"'] else [c]) = s := by
      rw [List.flatMap_congr fun c hc => if_neg (ne_of_mem_of_not_mem hc hsingle), List.flatMap_singleton']
    rw [hkept, unescape_eq_self_iff]
    exact ⟨fun h => ⟨hsingle, h.1, h.2.1, h.2.2⟩, fun h => ⟨h.noDouble, h.noPair, h.noEnd⟩⟩

theorem normalizeText_doubleQuotes (options : Options) (cs : List Char) :
    normalizeText options (doubleQuotes cs) = normalizeText options cs := by
  rw [normalizeText, doubleQuotes_of_not_mem (not_mem_doubleQuotes cs), normalizeText]

structure IsPlainKey (key : List Char) : Prop where
  filled : key ≠ []
  chars : ∀ c ∈ key, isQuiet c = true ∧ c ≠ '\'' ∧ Text.isBlank c = false
  start : ∀ c ∈ key.head?, c ∉ ['-', '!', '[', '\x7b', '|', '>']

def keyLine (key value : List Char) : List Char := key ++ ':' :: ' ' :: value

theorem Layout.value_ofRest_prefix (opening : List Char) (key : Option (List Char × List Char)) (rest : List Char) :
    (ofRest opening key rest).value <+: rest :=
  (Text.prefix_trimEnd _).trans ⟨_, splitCommentFrom_append .outside true rest⟩

section KeyLines

variable {key : List Char} (hkey : IsPlainKey key)

include hkey

theorem IsPlainKey.splitKey {rest : List Char} (hrest : endsKey rest = true) :
    splitKey (key ++ ':' :: rest) = some (key, rest) := by
  obtain ⟨c, key, rfl⟩ := List.exists_cons_of_ne_nil hkey.filled
  have hquiet : ∀ d ∈ c :: key, isQuiet d = true := fun d hd => (hkey.chars d hd).1
  have hstart : ['!', '[', '\x7b', '#', '|', '>'].contains c = false := by
    have hmark := hkey.start c rfl
    have hsharp : c ≠ '#' := by
      rintro rfl
      exact absurd (hquiet '#' List.mem_cons_self) (by decide)
    simp_all
  rw [List.cons_append, Shorthand.splitKey, hstart]
  exact splitKeyFrom_quiet hquiet hrest none

theorem IsPlainKey.takeOpening (rest : List Char) : takeOpening (key ++ ':' :: rest) = [] := by
  obtain ⟨c, key, rfl⟩ := List.exists_cons_of_ne_nil hkey.filled
  refine takeOpening_cons ?_ ?_ _
  · rintro rfl
    exact absurd (hkey.chars ' ' List.mem_cons_self).2.2 (by decide)
  · rintro rfl
    exact hkey.start '-' rfl List.mem_cons_self

/-- What a line with a quote behind its key has for its value. -/
theorem value_keyLine_prefix (cs : List Char) : (Layout.of (keyLine key ('"' :: cs))).value <+: '"' :: cs := by
  have hgap : (' ' :: '"' :: cs).takeWhile Text.isSpace = [' '] := rfl
  have hsplit := hkey.splitKey (show endsKey (' ' :: '"' :: cs) = true from rfl)
  simp only [Layout.of, keyLine, hkey.takeOpening, List.length_nil, List.drop_zero, hsplit, hgap]
  exact Layout.value_ofRest_prefix _ _ _

/-- A line with a quote behind its key is put out as it is. -/
theorem step_keyLine (options : Options) (number : Nat) (cs : List Char) (queue : List SourceLine) :
    step options ⟨number, keyLine key ('"' :: cs)⟩ queue = .ok ⟨[keyLine key ('"' :: cs)], queue⟩ := by
  have hvalue := value_keyLine_prefix hkey cs
  have hplain : opensFlow (Layout.of (keyLine key ('"' :: cs))).value = false ∧
      isBlockIndicator (Layout.of (keyLine key ('"' :: cs))).value = false ∧
        ¬IsLongPair (Layout.of (keyLine key ('"' :: cs))).value := by
    generalize (Layout.of (keyLine key ('"' :: cs))).value = value at hvalue
    cases value with
    | nil => exact ⟨rfl, rfl, by decide⟩
    | cons c value =>
      obtain ⟨rfl, -⟩ := List.cons_prefix_cons.1 hvalue
      exact ⟨rfl, rfl, fun hpair => absurd (isNameChar_of_isLongPair hpair) (by decide)⟩
  obtain ⟨hopens, hindicator, hpair⟩ := hplain
  have hlong : splitLongForm (Layout.of (keyLine key ('"' :: cs))).value = none :=
    Option.not_isSome_iff_eq_none.1 fun h => hpair (isSome_splitLongForm_iff.1 h)
  have hform : Form.of options (Layout.of (keyLine key ('"' :: cs))) = .other :=
    Form.of_eq_other hindicator (.inr hlong) (by simp [hopens])
  simp [step, settle, hform, expandValue, hopens, numbered, place, Layout.text_of, bind, Except.bind]

/-- Only the quotes of a line with a quoted string change. -/
theorem normalize_keyLine (options : Options) {quote : Char} (hquote : quote = '"' ∨ quote = '\'') {cs : List Char}
    (hbreak : '\n' ∉ cs) :
    normalize options (String.ofList (keyLine key (quote :: cs))) =
      .ok (String.ofList (keyLine key (doubleQuotes (quote :: cs)))) := by
  have hfirst : doubleQuotes (quote :: cs) = '"' :: doubleQuotes cs := by obtain rfl | rfl := hquote <;> rfl
  have hline : doubleQuotes (keyLine key (quote :: cs)) = keyLine key ('"' :: doubleQuotes cs) := by
    have hkept : doubleQuotes key = key := doubleQuotes_of_not_mem fun hmem => (hkey.chars _ hmem).2.1 rfl
    rw [← hfirst]
    simp only [keyLine, doubleQuotes, List.map_append, List.map_cons] at hkept ⊢
    rw [hkept]
    simp
  have hsingle : '\n' ∉ keyLine key ('"' :: doubleQuotes cs) := by
    have hwithin : '\n' ∉ doubleQuotes cs := fun hmem => (mem_of_mem_doubleQuotes hmem).elim (by decide) hbreak
    have hbefore : '\n' ∉ key := fun hmem => absurd (hkey.chars _ hmem).2.2 (by decide)
    simp [keyLine, hwithin, hbefore]
  have hrun : normalizeText options (keyLine key ('"' :: doubleQuotes cs)) = .ok (keyLine key ('"' :: doubleQuotes cs)) :=
    normalizeText_of_step hsingle (hline ▸ not_mem_doubleQuotes _) (step_keyLine hkey options 1 _ [])
  rw [← hline, normalizeText_doubleQuotes] at hrun
  rw [normalize, String.toList_ofList, hrun, hline, hfirst]

end KeyLines

/-- A string between double quotes is kept if it holds no single quote, and one between single quotes if double quotes
take it as it is. What stands behind the key of any other string does not denote it. -/
theorem normalize_quoted (options : Options) {key s : List Char} (hkey : IsPlainKey key) (hbreak : '\n' ∉ s) :
    (normalize options (String.ofList (keyLine key (quote s))) =
        .ok (String.ofList (keyLine key (doubleQuotes (quote s)))) ∧
      (Denotes (doubleQuotes (quote s)) s ↔ '\'' ∉ s)) ∧
    (normalize options (String.ofList (keyLine key (singleQuote s))) =
        .ok (String.ofList (keyLine key (doubleQuotes (singleQuote s)))) ∧
      (Denotes (doubleQuotes (singleQuote s)) s ↔ IsLiteral s)) := by
  have hescaped : '\n' ∉ escaped s ++ ['"'] := by simp [escaped, not_mem_escaped (show '\n' ≠ '\\' by decide) hbreak]
  have hdoubled : '\n' ∉ (s.flatMap fun c => if c = '\'' then ['\'', '\''] else [c]) ++ ['\''] := by
    simp only [List.mem_append, List.mem_flatMap, not_or, not_exists, not_and]
    refine ⟨fun c hc hmem => ?_, by decide⟩
    split at hmem
    · exact absurd hmem (by decide)
    · exact hbreak (List.mem_singleton.1 hmem ▸ hc)
  exact ⟨⟨normalize_keyLine hkey options (.inl rfl) hescaped, denotes_quote s⟩,
    normalize_keyLine hkey options (.inr rfl) hdoubled, denotes_singleQuote s⟩

/-- Double quotes in a string are kept between double quotes and end it between single ones. -/
theorem normalize_quoted_quotes :
    normalize .standard "K: \"a \\\"b\\\"\"" = .ok "K: \"a \\\"b\\\"\"" ∧
      Denotes "\"a \\\"b\\\"\"".toList "a \"b\"".toList ∧
        normalize .standard "K: 'a \"b\"'" = .ok "K: \"a \"b\"\"" ∧ ¬Denotes "\"a \"b\"\"".toList "a \"b\"".toList := by
  have hkey : IsPlainKey ['K'] := by
    refine ⟨by decide, List.forall_mem_singleton.2 (by decide), fun c hc => ?_⟩
    obtain rfl : 'K' = c := Option.some.inj hc
    decide
  obtain ⟨⟨hdouble, hkept⟩, hsingle, hlost⟩ := @normalize_quoted .standard ['K'] "a \"b\"".toList hkey (by decide)
  exact ⟨hdouble, hkept.2 (by decide), hsingle, fun h => (hlost.1 h).noDouble (by decide)⟩

/-- An apostrophe between double quotes ends its string. -/
theorem normalize_apostrophe :
    quote "it's".toList = "\"it's\"".toList ∧ normalize .standard "K: \"it's\"" = .ok "K: \"it\"s\"" ∧
      ∀ s, ¬Denotes "\"it\"s\"".toList s := by
  refine ⟨by decide, by decide +kernel, fun s h => ?_⟩
  have hquoted : Denotes (inQuotes "it\"s".toList) s := h
  have hends := (denotes_inQuotes.1 hquoted).1
  contradiction

end CloudTemplate.Shorthand
