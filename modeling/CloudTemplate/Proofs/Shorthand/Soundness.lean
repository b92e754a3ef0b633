import CloudTemplate.Proofs.Outcome
import CloudTemplate.Proofs.Shorthand.HeaderLines
/-! Every step puts out tidy lines: what a value is expanded to, in its line or in front of a block, holds
no call at a place. -/
namespace CloudTemplate.Shorthand

def Expansion.IsSound (line : List Char) : Expansion → Prop
  | .unchanged => '!' ∉ (Layout.of line).value ∨ opensFlow (Layout.of line).value = false
  | .inline text =>
    (Layout.of line).value ≠ [] ∧ opensFlow text = true ∧ '\n' ∉ text ∧
      ∀ z, isShut z = true → ¬FlowCall .read (text ++ z) ∧
        (Opens (text ++ z) → ∀ behind, ¬FlowCall .read (text ++ z ++ behind))
  | .block names indicator =>
    (Layout.of line).value ≠ [] ∧ names ≠ [] ∧ (∀ name ∈ names, IsName name) ∧
      ∀ text ∈ indicator, isBlockIndicator text = true

theorem applyName_cases (name : String) (argument : Fragment) :
    (∃ text, applyName name argument = .structured text) ∨
      ∃ names indicator, applyName name argument = .waiting names indicator := by
  cases argument with
  | waiting names indicator => exact .inr ⟨name :: names, indicator, rfl⟩
  | _ => exact .inl ⟨_, rfl⟩

theorem Flow.fragment_cases {inFlow : Bool} {cs left : List Char} {value : Flow}
    (h : flowAt inFlow cs = .ok (value, left)) (hopens : opensFlow cs = true) :
    (∃ text, value.fragment = .structured text) ∨ ∃ names indicator, value.fragment = .waiting names indicator := by
  have hcs := afterGap_of_opensFlow hopens
  cases flowAt_ok h with
  | nothing hgap =>
    rw [← hcs, hgap] at hopens
    contradiction
  | plain _ hplain =>
    rw [hcs, hopens] at hplain
    contradiction
  | quoted hgap =>
    rw [← hcs, hgap] at hopens
    contradiction
  | sequence => exact .inl ⟨_, rfl⟩
  | mapping => exact .inl ⟨_, rfl⟩
  | kept => exact .inl ⟨_, rfl⟩
  | @call _ _ argument f => exact applyName_cases f.longName argument.fragment
  | opened f => exact .inr ⟨_, _, rfl⟩
  | announced f => exact .inr ⟨_, _, rfl⟩

def Fragment.expansion (left : List Char) : Fragment → Expansion
  | .waiting functions indicator => .block functions indicator
  | fragment => .inline (fragment.text ++ left)

/-- What is read of the argument of a long form is written out as the function's; nothing may be left behind it. -/
theorem expandLongForm_eq (name : String) (argument : List Char) :
    expandLongForm name argument =
      if Text.trim argument = [] then .ok (.block [name] none)
      else if isBlockIndicator (Text.trim argument) = true then .ok (.block [name] (some (Text.trim argument)))
      else
        match flowAt false (Text.trim argument) with
        | .error fault => .error fault
        | .ok (value, left) =>
          if left = [] then .ok ((applyName name value.fragment).expansion [])
          else .error (.textAfterArgument name (String.ofList left)) := by
  unfold expandLongForm flowAt
  generalize Text.trim argument = argument
  simp only [List.isEmpty_iff]
  split
  · rfl
  · split
    · rfl
    · cases readFlow false argument with
      | error fault => rfl
      | ok read =>
        obtain ⟨value, left, hleft⟩ := read
        rw [bare_ok]
        by_cases hnil : left = []
        · cases hfragment : applyName name value.fragment <;> simp [hnil, hfragment, Fragment.expansion]
        · simp [hnil]

theorem Stands.isSound {line left : List Char} {fragment : Fragment} (hvalue : (Layout.of line).value ≠ [])
    (h : Stands left fragment) (hleft : '\n' ∉ left)
    (hcases : (∃ text, fragment = .structured text) ∨ ∃ names indicator, fragment = .waiting names indicator) :
    (fragment.expansion left).IsSound line := by
  obtain ⟨text, rfl⟩ | ⟨names, indicator, rfl⟩ := hcases
  · refine ⟨hvalue, ?_, ?_, fun z hz => ?_⟩
    · exact Layout.opensFlow_of_append ⟨left, rfl⟩ h.opensFlow
    · have htext := h.not_mem_lineFeed
      simp [htext, hleft]
    · simp only [List.append_assoc]
      exact ⟨h.not_flowCall hz, fun hopens behind => h.not_flowCall_of_opens hz hopens _⟩
  · cases h with
    | waiting hne hnames hindicator => exact ⟨hvalue, hne, hnames, hindicator⟩

theorem isSound_expandValue {line : List Char} {expansion : Expansion} (hline : '\n' ∉ line)
    (h : expandValue (Layout.of line).value = .ok expansion) : expansion.IsSound line := by
  have hparts := (not_mem_parts hline).2.1
  rw [expandValue_eq] at h
  split at h
  · rename_i hmark
    have hopens : opensFlow (Layout.of line).value = true := (Bool.and_eq_true_iff.1 hmark).2
    have hvalue := ne_nil_of_opensFlow hopens
    split at h
    · contradiction
    · rename_i value left hread
      have hleft := not_mem_of_suffix (value.suffix hread) hparts
      have hsound := (value.stands hread hparts).isSound hvalue hleft (Flow.fragment_cases hread hopens)
      have hexpansion : value.fragment.expansion left = expansion := by
        generalize value.fragment = fragment at h
        cases fragment <;> exact Except.ok.inj h
      rwa [hexpansion] at hsound
  · rename_i hmark
    cases h
    cases hopens : opensFlow (Layout.of line).value with
    | true =>
      refine .inl fun hmem => hmark ?_
      rw [hopens, Bool.and_true]
      simpa [hasMark] using hmem
    | false => exact .inr hopens

theorem isName_of_isLongName {name : List Char} (h : isLongName name = true) : IsName (String.ofList name) := by
  have hfunctions : ∀ c ∈ "Fn::".toList, isNameChar c = true := List.all_eq_true.1 rfl
  have hchars : ∀ c ∈ name, isNameChar c = true := by
    simp only [isLongName, Bool.or_eq_true, Bool.and_eq_true, beq_iff_eq, List.all_eq_true] at h
    obtain (rfl | rfl) | ⟨hstart, -, hrest⟩ := h
    · exact List.all_eq_true.1 rfl
    · exact List.all_eq_true.1 rfl
    · obtain ⟨rest, rfl⟩ := List.isPrefixOf_iff_prefix.1 hstart
      intro c hc
      cases List.mem_append.1 hc with
      | inl hc => exact hfunctions c hc
      | inr hc =>
        have hrest : c.isAlphanum = true := hrest c (by simpa using hc)
        simp [isNameChar, hrest]
  simpa [IsName] using hchars

theorem splitColonSpace_append {cs name argument : List Char} (h : splitColonSpace cs = some (name, argument)) :
    name ++ ':' :: ' ' :: argument = cs := by
  fun_induction splitColonSpace cs generalizing name with
  | case1 => contradiction
  | case2 cs =>
    cases h
    rfl
  | case3 c cs hcolon ih =>
    obtain ⟨split, hsplit, heq⟩ := Option.map_eq_some_iff.1 h
    cases heq
    rw [List.cons_append, ih hsplit]

theorem splitLongForm_ok {value argument : List Char} {name : String} (h : splitLongForm value = some (name, argument)) :
    value ≠ [] ∧ IsName name ∧ (argument = [] ∨ name.toList ++ ':' :: ' ' :: argument = value) := by
  have hne : value ≠ [] := by
    intro hnil
    rw [hnil] at h
    contradiction
  cases hsplit : splitColonSpace value with
  | some parts =>
    obtain ⟨front, back⟩ := parts
    simp only [splitLongForm, hsplit] at h
    split at h
    · rename_i hlong
      cases h
      exact ⟨hne, isName_of_isLongName hlong, .inr (by rw [String.toList_ofList, splitColonSpace_append hsplit])⟩
    · contradiction
  | none =>
    simp only [splitLongForm, hsplit] at h
    by_cases hlast : value.getLast? = some ':'
    · rw [if_pos hlast] at h
      dsimp only at h
      split at h
      · rename_i hlong
        cases h
        exact ⟨hne, isName_of_isLongName hlong, .inl rfl⟩
      · contradiction
    · rw [if_neg hlast] at h
      contradiction

theorem not_mem_argument {value argument : List Char} {name : String} (h : splitLongForm value = some (name, argument))
    {c : Char} (hc : c ∉ value) : c ∉ argument := by
  obtain hnil | happend := (splitLongForm_ok h).2.2
  · simp [hnil]
  · exact fun hmem => hc (happend ▸ by simp [hmem])

def IsLongPair (value : List Char) : Prop :=
  ∃ name, isLongName name = true ∧ (value = name ++ [':'] ∨ ∃ argument, value = name ++ ':' :: ' ' :: argument)

theorem not_mem_of_isLongName {name : List Char} (h : isLongName name = true) : ' ' ∉ name := by
  intro hmem
  have hname := isName_of_isLongName h ' ' (by simpa using hmem)
  contradiction

theorem splitColonSpace_name {name : List Char} (h : ' ' ∉ name) (argument : List Char) :
    splitColonSpace (name ++ ':' :: ' ' :: argument) = some (name, argument) := by
  induction name with
  | nil => rfl
  | cons c name ih =>
    obtain ⟨-, hname⟩ := List.ne_and_not_mem_of_not_mem_cons h
    rw [List.cons_append, splitColonSpace, ih hname]
    · rfl
    · intro cs _ hcs
      cases name with
      | nil => simp at hcs
      | cons d name =>
        rw [List.cons_append, List.cons.injEq] at hcs
        exact hname (hcs.1 ▸ List.mem_cons_self)

theorem splitColonSpace_bare {name : List Char} (h : ' ' ∉ name) : splitColonSpace (name ++ [':']) = none := by
  cases hsplit : splitColonSpace (name ++ [':']) with
  | none => rfl
  | some split =>
    have hmem : ' ' ∈ name ++ [':'] := splitColonSpace_append hsplit ▸ by simp
    simp [h] at hmem

/-- The values that are taken apart as long forms. -/
theorem isSome_splitLongForm_iff {value : List Char} : (splitLongForm value).isSome = true ↔ IsLongPair value := by
  constructor
  · intro h
    cases hsplit : splitColonSpace value with
    | some parts =>
      obtain ⟨name, argument⟩ := parts
      have hvalue := splitColonSpace_append hsplit
      by_cases hname : isLongName name = true
      · exact ⟨name, hname, .inr ⟨argument, hvalue.symm⟩⟩
      · simp [splitLongForm, hsplit, hname] at h
    | none =>
      by_cases hlast : value.getLast? = some ':'
      · have hvalue := List.dropLast_append_getLast? ':' hlast
        by_cases hname : isLongName value.dropLast = true
        · exact ⟨value.dropLast, hname, .inl hvalue.symm⟩
        · simp [splitLongForm, hsplit, hlast, hname] at h
      · simp [splitLongForm, hsplit, hlast] at h
  · rintro ⟨name, hname, rfl | ⟨argument, rfl⟩⟩
    · simp [splitLongForm, splitColonSpace_bare (not_mem_of_isLongName hname), hname]
    · simp [splitLongForm, splitColonSpace_name (not_mem_of_isLongName hname), hname]

instance (value : List Char) : Decidable (IsLongPair value) := decidable_of_iff _ isSome_splitLongForm_iff

theorem isNameChar_of_isLongPair {c : Char} {cs : List Char} (h : IsLongPair (c :: cs)) : isNameChar c = true := by
  obtain ⟨name, hname, hvalue⟩ := h
  cases name with
  | nil => contradiction
  | cons d name =>
    have hc : c = d := by obtain hvalue | ⟨argument, hvalue⟩ := hvalue <;> exact (List.cons.inj hvalue).1
    rw [hc]
    exact isName_of_isLongName hname d (by simp)

/-- No collection or tag is a long form. -/
theorem splitLongForm_of_opensFlow {value : List Char} (h : opensFlow value = true) : splitLongForm value = none := by
  cases value with
  | nil => rfl
  | cons c cs =>
    refine Option.not_isSome_iff_eq_none.1 fun hlong => ?_
    have hc := isNameChar_of_isLongPair (isSome_splitLongForm_iff.1 hlong)
    simp only [opensFlow, Bool.or_eq_true, beq_iff_eq] at h
    obtain (rfl | rfl) | rfl := h <;> contradiction

theorem isSound_expandLongForm {line argument : List Char} {name : String} {expansion : Expansion} (hname : IsName name)
    (hvalue : (Layout.of line).value ≠ []) (hline : '\n' ∉ argument)
    (h : expandLongForm name argument = .ok expansion) : expansion.IsSound line := by
  have htrim : '\n' ∉ Text.trim argument := fun hmem =>
    hline ((List.dropWhile_sublist _).subset ((Text.prefix_trimEnd _).subset hmem))
  have hnames : ∀ other ∈ [name], IsName other := fun other hother => by rwa [List.mem_singleton.1 hother]
  rw [expandLongForm_eq] at h
  generalize Text.trim argument = argument at h htrim
  split at h
  · cases h
    exact ⟨hvalue, List.cons_ne_nil _ _, hnames, by simp⟩
  · split at h
    · rename_i hindicator
      cases h
      exact ⟨hvalue, List.cons_ne_nil _ _, hnames, by simpa using hindicator⟩
    · split at h
      · contradiction
      · rename_i value left hread
        have hstands := value.stands hread htrim
        split at h
        · rename_i hleft
          cases h
          rw [hleft] at hstands
          exact (hstands.applyName hname).isSound hvalue (by simp) (applyName_cases name value.fragment)
        · contradiction

def AreSingle (queue : List SourceLine) : Prop := ∀ line ∈ queue, '\n' ∉ line.text

theorem AreSingle.sublist {queue rest : List SourceLine} (h : AreSingle queue) (hrest : ∀ line ∈ rest, line ∈ queue) :
    AreSingle rest := fun line hline => h line (hrest line hline)

theorem mem_of_mem_bodyOf {owner : Nat} {underKey : Bool} {queue : List SourceLine} {line : SourceLine}
    (h : line ∈ bodyOf owner underKey queue) : line ∈ queue ∧ belongs owner underKey line.text = true := by
  have htake : line ∈ queue.takeWhile fun line => belongs owner underKey line.text := by
    rw [bodyOf, dropBlankEnd, List.mem_reverse] at h
    exact List.mem_reverse.1 ((List.dropWhile_sublist _).subset h)
  exact ⟨(List.takeWhile_sublist _).subset htake,
    List.mem_takeWhile_imp (p := fun line : SourceLine => belongs owner underKey line.text) htake⟩

theorem not_mem_spaces (n : Nat) : '\n' ∉ Text.spaces n :=
  fun hmem => absurd (List.eq_of_mem_replicate hmem) (by decide)

theorem least_le_indentation {column : Nat} {lines : List SourceLine} {line : SourceLine} (hline : line ∈ lines)
    (hblank : Text.isBlankText line.text = false) :
    (leastIndentation lines).getD column ≤ Text.indentation line.text := by
  have hmem : Text.indentation line.text ∈ (lines.filter fun line => !Text.isBlankText line.text).map
      fun line => Text.indentation line.text :=
    List.mem_map.2 ⟨line, List.mem_filter.2 ⟨hline, by simpa using hblank⟩, rfl⟩
  cases hmin : leastIndentation lines with
  | none =>
    rw [List.min?_eq_none_iff.1 hmin] at hmem
    contradiction
  | some least => exact (List.min?_eq_some_iff.1 hmin).2 _ hmem

/-- Lines that are moved to a column are empty or start no further out. -/
theorem exists_spaces_of_mem_reindent {column : Nat} {lines : List SourceLine} {line : SourceLine}
    (h : line ∈ reindent column lines) : line.text = [] ∨ ∃ n cs, column ≤ n ∧ line.text = Text.spaces n ++ cs := by
  obtain ⟨source, hsource, rfl⟩ := List.mem_map.1 h
  by_cases hblank : Text.isBlankText source.text = true
  · rw [if_pos hblank]
    exact .inl rfl
  · have hleast : (leastIndentation lines).getD column ≤ Text.indentation source.text :=
      least_le_indentation hsource (Bool.eq_false_iff.2 hblank)
    rw [if_neg hblank]
    exact .inr ⟨_, _, by omega, rfl⟩

/-- Lines that are moved to a column belong to whatever stands before it. -/
theorem belongs_of_mem_reindent {column : Nat} {lines : List SourceLine} {line : SourceLine}
    (h : line ∈ reindent column lines) {owner : Nat} (howner : owner < column) :
    belongs owner false line.text = true := by
  obtain hnil | ⟨n, cs, hn, htext⟩ := exists_spaces_of_mem_reindent h
  · rw [hnil]
    rfl
  · rw [htext]
    exact belongs_spaces (howner.trans_le hn) false cs

theorem AreSingle.reindent {lines : List SourceLine} (h : AreSingle lines) (column : Nat) :
    AreSingle (reindent column lines) := by
  intro line hline
  obtain ⟨source, hsource, rfl⟩ := List.mem_map.1 hline
  have hsingle := h source hsource
  split
  · simp
  · simp only [List.mem_append, not_or]
    exact ⟨not_mem_spaces _, fun hmem => hsingle ((List.dropWhile_sublist _).subset hmem)⟩

structure Outcome.IsTidy (P : List Char → Prop) (outcome : Outcome) : Prop where
  lines : Tidy (IsQuiet P) outcome.lines
  queue : AreSingle outcome.queue

theorem isQuiet_inline {P : List Char → Prop} {line text : List Char} (hvalue : (Layout.of line).value ≠ [])
    (hopens : opensFlow text = true) (htext : '\n' ∉ text)
    (hfree : ∀ z, isShut z = true → ¬FlowCall .read (text ++ z) ∧
      (Opens (text ++ z) → ∀ behind, ¬FlowCall .read (text ++ z ++ behind)))
    (hline : '\n' ∉ line) : IsQuiet P ((Layout.of line).lead ++ text ++ (Layout.of line).trailing) := by
  obtain ⟨hlead, -, htrailing⟩ := not_mem_parts hline
  obtain ⟨hfree, hbehind⟩ := hfree _ (Layout.isTrailing hvalue).isShut
  have hopens' : opensFlow (text ++ (Layout.of line).trailing) = true := Layout.opensFlow_of_append ⟨_, rfl⟩ hopens
  have hleads := Layout.leads_of hvalue _ hopens'
  refine ⟨by simp [hlead, htext, htrailing], fun hcall => ?_, ?_⟩
  · have htext' := Layout.text_of ((Layout.of line).lead ++ (text ++ (Layout.of line).trailing))
    rw [List.append_assoc] at hcall
    rw [Layout.text, hleads, List.append_assoc] at htext'
    have hrest := List.append_cancel_left htext'
    exact hfree (hrest ▸ hcall.append _)
  · -- The value that starts on the line starts with what was written out.
    rintro ⟨lead, first, after, heq, hcall⟩
    cases hcall with
    | read hlead' hstart hwhole h =>
      rw [List.append_assoc] at heq
      have hlead := (Layout.opensFlow_value heq hlead' hstart.opensFlow).1
      rw [hleads] at hlead
      rw [hlead] at heq
      obtain rfl := List.append_cancel_left heq
      obtain ⟨behind, hbehind'⟩ := hwhole
      exact absurd (hbehind' ▸ h) (hbehind hstart behind)

theorem isTidy_place {P : List Char → Prop} {number : Nat} {line : List Char} {expansion : Expansion}
    {queue : List SourceLine} {outcome : Outcome}
    (h : place .standard number (Layout.of line) expansion queue = .ok outcome)
    (hexpansion : expansion.IsSound line) (hline : '\n' ∉ line) (hqueue : AreSingle queue)
    (hP : '!' ∉ (Layout.of line).value → P line) : outcome.IsTidy P := by
  cases expansion with
  | unchanged =>
    cases h
    rw [Layout.text_of]
    obtain hmark | hopens := hexpansion
    · exact ⟨.line (.of_not_mem hline hmark (hP hmark)) .nil, hqueue⟩
    · exact ⟨.line (.of_not_opensFlow hline hopens) .nil, hqueue⟩
  | inline text =>
    obtain ⟨hvalue, hopens, htext, hfree⟩ := hexpansion
    have helongate : Options.standard.isEnabled .elongate = true := rfl
    simp only [place, helongate, Bool.true_or, if_true, Except.ok.injEq] at h
    rw [← h]
    exact ⟨.line (isQuiet_inline hvalue hopens htext hfree hline) .nil, hqueue⟩
  | block names indicator =>
    obtain ⟨hvalue, hne, hnames, hindicator⟩ := hexpansion
    have hmultiline : Options.standard.isEnabled .multiline = true := rfl
    have hbody : AreSingle (bodyOf (Layout.of line).ownerColumn (Layout.of line).keyColumn.isSome queue) :=
      hqueue.sublist fun line hline => (mem_of_mem_bodyOf hline).1
    have hmoved := hbody.reindent (blockColumn (Layout.of line) names)
    have hrest (n : Nat) : AreSingle (queue.drop n) := hqueue.sublist fun line hline => List.mem_of_mem_drop hline
    simp only [place, hmultiline, Bool.not_true, Bool.false_eq_true, if_false] at h
    cases indicator with
    | some indicator =>
      simp only [Option.isSome_some, if_true, Except.ok.injEq] at h
      rw [← h]
      -- The moved body is deeper than the owner of its scalar, so the header covers it.
      refine ⟨tidy_blockHeader hvalue hline hne hnames (hindicator indicator rfl) (fun owner howner other hother => ?_)
        (fun other hother => ?_), hrest _⟩
      · obtain ⟨moved, hmem, rfl⟩ := List.mem_map.1 hother
        exact belongs_of_mem_reindent hmem howner
      · obtain ⟨moved, hmem, rfl⟩ := List.mem_map.1 hother
        exact hmoved moved hmem
    | none =>
      simp only [Option.isSome_none, Bool.false_eq_true, if_false] at h
      split at h
      · contradiction
      · cases h
        refine ⟨.of_forall (isQuiet_of_mem_blockHeader hvalue hline hne hnames), fun other hother => ?_⟩
        cases List.mem_append.1 hother with
        | inl hother => exact hmoved other hother
        | inr hother => exact hrest _ other hother

theorem Form.of_blockScalar {options : Options} {layout : Layout} (h : Form.of options layout = .blockScalar) :
    isBlockIndicator layout.value = true := by
  rw [Form.of] at h
  split at h
  · assumption
  · split at h
    · contradiction
    · split at h <;> contradiction

theorem Form.of_longForm {options : Options} {layout : Layout} {name : String} {argument : List Char}
    (h : Form.of options layout = .longForm name argument) : splitLongForm layout.value = some (name, argument) := by
  rw [Form.of] at h
  split at h
  · contradiction
  · split at h
    · rename_i hlong
      cases h
      split at hlong
      · exact hlong
      · contradiction
    · split at h <;> contradiction

/-- A line that is complete by itself. -/
theorem isTidy_settle {P : List Char → Prop} {number : Nat} {text : List Char} {queue : List SourceLine}
    {outcome : Outcome}
    (h : settle .standard number text queue = .ok outcome) (hline : '\n' ∉ text) (hqueue : AreSingle queue)
    (hP : '!' ∉ (Layout.of text).value → P text) : outcome.IsTidy P := by
  have hvalue (h : (do
      let expansion ← numbered number (expandValue (Layout.of text).value)
      place .standard number (Layout.of text) expansion queue) = .ok outcome) : outcome.IsTidy P := by
    cases hexpand : expandValue (Layout.of text).value with
    | error fault =>
      rw [hexpand] at h
      contradiction
    | ok expansion =>
      rw [hexpand] at h
      exact isTidy_place h (isSound_expandValue hline hexpand) hline hqueue hP
  simp only [settle] at h
  split at h
  · rename_i hform
    have hindicator := Form.of_blockScalar hform
    have hopens : opensFlow (Layout.of text).value = false := opensFlow_of_isBlockIndicator hindicator
    cases h
    refine ⟨?_, hqueue.sublist fun line hline => List.mem_of_mem_drop hline⟩
    rw [← List.append_nil (List.map _ _)]
    refine .scalar (.of_not_opensFlow hline hopens) hindicator (fun line hmem => ?_) (fun line hmem => ?_) .nil
    · obtain ⟨source, hsource, rfl⟩ := List.mem_map.1 hmem
      exact (mem_of_mem_bodyOf hsource).2
    · obtain ⟨source, hsource, rfl⟩ := List.mem_map.1 hmem
      exact hqueue source (mem_of_mem_bodyOf hsource).1
  · rename_i name argument hform
    obtain ⟨hne, hname, -⟩ := splitLongForm_ok (Form.of_longForm hform)
    have hargument : '\n' ∉ argument := not_mem_argument (Form.of_longForm hform) (not_mem_parts hline).2.1
    cases hexpand : expandLongForm name argument with
    | error fault =>
      rw [hexpand] at h
      contradiction
    | ok expansion =>
      rw [hexpand] at h
      exact isTidy_place h (isSound_expandLongForm hname hne hargument hexpand) hline hqueue hP
  · exact hvalue h

theorem mem_longer (joined piece : List Char) :
    (∀ c ∈ if piece.isEmpty then joined else joined ++ ' ' :: piece, c ∈ joined ∨ c = ' ' ∨ c ∈ piece) ∧
      (∀ c ∈ joined, c ∈ if piece.isEmpty then joined else joined ++ ' ' :: piece) ∧
      ∀ c ∈ piece, c ∈ if piece.isEmpty then joined else joined ++ ' ' :: piece := by
  cases piece with
  | nil =>
    refine ⟨fun c hc => .inl ?_, fun c hc => ?_, by simp⟩
    · simpa using hc
    · simpa using hc
  | cons d ds =>
    refine ⟨fun c hc => ?_, fun c hc => ?_, fun c hc => ?_⟩
    · simpa using hc
    · simp [hc]
    · simp [List.mem_cons.1 hc]

/-- The characters of a joined line are those of its pieces and the spaces between them. -/
theorem joinFlow_ok {joined text : List Char} {queue taken rest : List SourceLine}
    (h : joinFlow joined queue = some (text, taken, rest)) :
    queue = taken ++ rest ∧ (∀ c ∈ text, c ∈ joined ∨ c = ' ' ∨ ∃ line ∈ taken, c ∈ pieceOf line.text) ∧
      (∀ c ∈ joined, c ∈ text) ∧ ∀ line ∈ taken, ∀ c ∈ pieceOf line.text, c ∈ text := by
  -- On the queue, with what has been joined so far as the accumulator.
  induction queue generalizing joined text taken with
  | nil => contradiction
  | cons line queue ih =>
    obtain ⟨hfrom, hjoined, hpiece⟩ := mem_longer joined (pieceOf line.text)
    rw [joinFlow] at h
    generalize (if (pieceOf line.text).isEmpty then joined else joined ++ ' ' :: pieceOf line.text)
      = longer at h hfrom hjoined hpiece
    simp only at h
    split at h
    · obtain ⟨⟨text', taken', rest'⟩, hjoin, heq⟩ := Option.map_eq_some_iff.1 h
      cases heq
      obtain ⟨rfl, hchars, hinner, htaken⟩ := ih hjoin
      refine ⟨rfl, fun c hc => ?_, fun c hc => hinner c (hjoined c hc), fun other hother c hc => ?_⟩
      · obtain hc | hc | ⟨other, hother, hc⟩ := hchars c hc
        · obtain hc | hc | hc := hfrom c hc
          · exact .inl hc
          · exact .inr (.inl hc)
          · exact .inr (.inr ⟨line, List.mem_cons_self, hc⟩)
        · exact .inr (.inl hc)
        · exact .inr (.inr ⟨other, List.mem_cons_of_mem line hother, hc⟩)
      · cases hother with
        | head => exact hinner c (hpiece c hc)
        | tail _ hother => exact htaken other hother c hc
    · cases h
      refine ⟨rfl, fun c hc => ?_, hjoined, fun other hother c hc => ?_⟩
      · obtain hc | hc | hc := hfrom c hc
        · exact .inl hc
        · exact .inr (.inl hc)
        · exact .inr (.inr ⟨line, List.mem_cons_self, hc⟩)
      · rw [List.mem_singleton.1 hother] at hc
        exact hpiece c hc

/-- A joined line goes on where the first of its lines ends, and its brackets balance. -/
theorem joinFlow_closes {joined text : List Char} {queue taken rest : List SourceLine}
    (h : joinFlow joined queue = some (text, taken, rest)) : joined <+: text ∧ isOpen text = false := by
  induction queue generalizing joined taken with
  | nil => contradiction
  | cons line queue ih =>
    rw [joinFlow] at h
    have hlonger : joined <+: if (pieceOf line.text).isEmpty then joined else joined ++ ' ' :: pieceOf line.text := by
      split
      · exact List.prefix_rfl
      · exact List.prefix_append _ _
    generalize (if (pieceOf line.text).isEmpty then joined else joined ++ ' ' :: pieceOf line.text)
      = longer at h hlonger
    simp only at h
    split at h
    · obtain ⟨⟨text', taken', rest'⟩, hjoin, heq⟩ := Option.map_eq_some_iff.1 h
      cases heq
      exact (ih hjoin).imp_left hlonger.trans
    · rename_i hopen
      cases h
      simp only [Bool.or_eq_true, not_or, Bool.not_eq_true] at hopen
      exact ⟨hlonger, hopen.2⟩

theorem mem_trim {cs : List Char} {c : Char} (h : c ∈ cs) (hc : Text.isBlank c = false) : c ∈ Text.trim cs := by
  have hstart : c ∈ Text.trimStart cs := by
    rw [← List.takeWhile_append_dropWhile (p := Text.isBlank) (l := cs), List.mem_append] at h
    obtain h | h := h
    · rw [List.mem_takeWhile_imp h] at hc
      contradiction
    · exact h
  obtain ⟨blanks, hsplit, hblanks⟩ := Text.exists_trimEnd_append (Text.trimStart cs)
  rw [← hsplit, List.mem_append] at hstart
  obtain hstart | hstart := hstart
  · exact hstart
  · rw [hblanks c hstart] at hc
    contradiction

theorem mem_of_mem_pieceOf {text : List Char} {c : Char} (h : c ∈ pieceOf text) : c ∈ text := by
  have hmem : c ∈ (Layout.of text).lead ++ (Layout.of text).value :=
    (List.dropWhile_sublist _).subset ((Text.prefix_trimEnd _).subset h)
  rw [← Layout.text_of text, Layout.text]
  exact List.mem_append_left _ hmem

/-- Whether a step puts a line out and finds no mark in its value: a line that is not joined to others, that is put out
next to those that it would be joined to, or that is joined. -/
inductive KeepsUnmarked (line : SourceLine) (queue : List SourceLine) (text : List Char) : Prop
  | alone (hmark : '!' ∉ (Layout.of line.text).value) (htext : text = line.text)
      (hjoin : Form.of .standard (Layout.of line.text) = .openFlow → joinFlow (content line.text) queue = none)
  | apart {joined : List Char} {taken rest : List SourceLine}
      (hjoin : joinFlow (content line.text) queue = some (joined, taken, rest)) (hmark : '!' ∉ joined)
      (htext : text ∈ (line :: taken).map SourceLine.text)
  | joined {taken rest : List SourceLine} (hjoin : joinFlow (content line.text) queue = some (text, taken, rest))
      (hmark : '!' ∉ (Layout.of text).value)

theorem isTidy_step {line : SourceLine} {queue : List SourceLine} {outcome : Outcome}
    (h : step .standard line queue = .ok outcome) (hline : '\n' ∉ line.text) (hqueue : AreSingle queue) :
    outcome.IsTidy (KeepsUnmarked line queue) := by
  have hmultiline : Options.standard.isEnabled .multiline = true := rfl
  simp only [step, hmultiline, Bool.not_true, Bool.false_eq_true, if_false] at h
  split at h
  · split at h
    · rename_i joined taken rest hjoin
      obtain ⟨rfl, hchars, hfirst, htaken⟩ := joinFlow_ok hjoin
      have hrest : AreSingle rest := hqueue.sublist fun line hline => List.mem_append_right _ hline
      have hsingle : ∀ other ∈ taken, '\n' ∉ other.text := fun other hother => hqueue other (List.mem_append_left _ hother)
      split at h
      · refine isTidy_settle h (fun hmem => ?_) hrest (.joined hjoin)
        obtain hmem | hmem | ⟨other, hother, hmem⟩ := hchars _ hmem
        · obtain ⟨hlead, hvalue, -⟩ := not_mem_parts hline
          exact (List.mem_append.1 hmem).elim hlead hvalue
        · contradiction
        · exact hsingle other hother (mem_of_mem_pieceOf hmem)
      · -- No piece holds a mark, so neither does the value of any of the lines.
        rename_i hmark
        have hmark : '!' ∉ joined := by simpa [hasMark] using hmark
        cases h
        refine ⟨.of_forall fun other hother => ?_, hrest⟩
        change other ∈ (line :: taken).map SourceLine.text at hother
        have hkeeps : KeepsUnmarked line (taken ++ rest) other := .apart hjoin hmark hother
        obtain ⟨source, hsource, rfl⟩ := List.mem_map.1 hother
        cases hsource with
        | head => exact .of_not_mem hline (fun hmem => hmark (hfirst _ (List.mem_append_right _ hmem))) hkeeps
        | tail _ hsource =>
          refine .of_not_mem (hsingle source hsource) (fun hmem => hmark (htaken source hsource _ ?_)) hkeeps
          exact mem_trim (List.mem_append_right _ hmem) rfl
    · rename_i hjoin
      split at h
      · contradiction
      · rename_i hmark
        have hmark : '!' ∉ (Layout.of line.text).value := by simpa [hasMark] using hmark
        cases h
        exact ⟨.line (.of_not_mem hline hmark (.alone hmark rfl fun _ => hjoin)) .nil, hqueue⟩
  · rename_i hform
    exact isTidy_settle h hline hqueue fun hmark => .alone hmark rfl fun hopen => absurd hopen hform

/-- Whether a run puts a line out in a step that finds no mark in it. -/
inductive Remains (text : List Char) : List SourceLine → Prop
  | here {line : SourceLine} {queue : List SourceLine} {outcome : Outcome} (hstep : step .standard line queue = .ok outcome)
      (hkeeps : KeepsUnmarked line queue text) : Remains text (line :: queue)
  | later {line : SourceLine} {queue : List SourceLine} {outcome : Outcome} (hstep : step .standard line queue = .ok outcome)
      (h : Remains text outcome.queue) : Remains text (line :: queue)

/-- No line that a run puts out has a call at a place. The values that go on up to a call start on lines that remain. -/
theorem tidy_normalizeLines {queue : List SourceLine} {lines : List (List Char)}
    (h : normalizeLines .standard queue = .ok lines) (hqueue : AreSingle queue) :
    Tidy (IsQuiet (Remains · queue)) lines := by
  induction queue using runInduction .standard generalizing lines with
  | nil =>
    rw [normalizeLines_nil] at h
    cases h
    exact .nil
  | fault line queue fault hstep =>
    rw [normalizeLines_cons, hstep] at h
    contradiction
  | next line queue outcome hstep ih =>
    have htidy := isTidy_step hstep (hqueue line List.mem_cons_self)
      (hqueue.sublist fun other hother => List.mem_cons_of_mem line hother)
    rw [normalizeLines_of_step hstep] at h
    obtain ⟨rest, hrest, rfl⟩ := map_eq_ok_iff.1 h
    -- A line of this step remains here, a later one in the rest of the run.
    exact .append (htidy.lines.imp fun _ hquiet => hquiet.imp (.here hstep))
      ((ih hrest htidy.queue).imp fun _ hquiet => hquiet.imp (.later hstep))

theorem single_normalizeLines {queue : List SourceLine} {lines : List (List Char)}
    (h : normalizeLines .standard queue = .ok lines) (hqueue : AreSingle queue) : ∀ line ∈ lines, '\n' ∉ line :=
  (tidy_normalizeLines h hqueue).not_mem_lineFeed fun _ hquiet => hquiet.single

theorem areSingle_numberLines (first : Nat) (cs : List Char) : AreSingle (numberLines first (splitLines cs)) := by
  intro line hline hbreak
  have hmem : line.text ∈ splitLines cs := by
    rw [← map_text_numberLines first (splitLines cs)]
    exact List.mem_map_of_mem hline
  exact (mem_of_mem_splitLines line.text hmem _ hbreak).2 rfl

end CloudTemplate.Shorthand
