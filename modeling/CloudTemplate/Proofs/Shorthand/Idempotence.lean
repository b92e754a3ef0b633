import CloudTemplate.Proofs.Shorthand.StableLines
/-! Normalizing what has been normalized. Each step puts out lines that a second run leaves as they are, if its line
is steady: each tag that is kept has a value, what is plain closes its quotes and brackets, and a collection that is
left open stays open. -/
namespace CloudTemplate.Shorthand

def isSteadyText (text : List Char) : Bool :=
  let layout := Layout.of text
  match Form.of .standard layout with
  | .blockScalar => true
  | .longForm _ argument => isSteadyValue (Text.trim argument)
  | _ => !(hasMark layout.value && opensFlow layout.value) || isSteadyValue layout.value

/-- Whether a line is steady in front of a queue. No line put out later may close a collection that the lines of
the queue leave open. -/
def IsSteadyLine (text : List Char) (queue : List SourceLine) : Prop :=
  let layout := Layout.of text
  if Form.of .standard layout = .openFlow then
    match joinFlow (layout.lead ++ layout.value) queue with
    | some (joined, _) => hasMark joined = true → isSteadyText joined = true
    | none => ∀ lines, normalizeLines .standard queue = .ok lines →
        joinFlow (layout.lead ++ layout.value) (numberLines 1 lines) = none
  else isSteadyText text = true

inductive SteadyRun : List SourceLine → Prop
  | nil : SteadyRun []
  | step {line : SourceLine} {queue : List SourceLine} {outcome : Outcome} (h : IsSteadyLine line.text queue)
      (hstep : step .standard line queue = .ok outcome) (hrest : SteadyRun outcome.queue) : SteadyRun (line :: queue)

def IsSteady (text : String) : Prop := SteadyRun (numberLines 1 (splitLines (doubleQuotes text.toList)))

theorem isBlankText_of_value {line : List Char} (h : (Layout.of line).value ≠ []) : Text.isBlankText line = false := by
  have hlast := Text.isBlank_getLast_trimEnd (Layout.of line).value
  rw [Layout.trimEnd_value] at hlast
  obtain ⟨front, c, hvalue⟩ := (List.eq_nil_or_concat _).resolve_left h
  rw [List.concat_eq_append] at hvalue
  have hc : Text.isBlank c = false := hlast c (by rw [hvalue]; simp)
  rw [← Layout.text_of line, Layout.text, hvalue]
  simp [Text.isBlankText, hc]

section Starts

variable {line : List Char}

def HasStart (line : List Char) : Prop := opensFlow (Layout.of line).value = true ∨ (Layout.of line).key ≠ none

theorem sameStart_key {key gap : List Char} (hkey : (Layout.of line).key = some (key, gap)) (rest : List Char) :
    SameStart line ((Layout.of line).opening ++ (key ++ ':' :: rest)) := by
  have hcolon : Text.isBlank ':' = false := by decide
  have htext : (Layout.of line).opening ++ key ++ ':' :: (gap ++ ((Layout.of line).value ++ (Layout.of line).trailing)) =
      line := by
    conv_rhs => rw [← Layout.text_of line, Layout.text, Layout.lead, hkey]
    simp
  have hstart := SameStart.of_append ((Layout.of line).opening ++ key) hcolon hcolon
    (gap ++ ((Layout.of line).value ++ (Layout.of line).trailing)) rest
  rwa [htext, List.append_assoc] at hstart

theorem sameStart_value (hkey : (Layout.of line).key = none) (hopens : opensFlow (Layout.of line).value = true) {d : Char}
    (hd : Text.isBlank d = false) (rest : List Char) : SameStart line ((Layout.of line).opening ++ d :: rest) := by
  have htext := Layout.text_of line
  rw [Layout.text, Layout.lead, hkey, List.append_nil] at htext
  cases hvalue : (Layout.of line).value with
  | nil =>
    rw [hvalue] at hopens
    contradiction
  | cons c cs =>
    rw [hvalue, List.append_assoc] at htext
    rw [hvalue] at hopens
    have hstart := SameStart.of_append (Layout.of line).opening (isBlank_of_opensFlow_cons hopens) hd
      (cs ++ (Layout.of line).trailing) rest
    rwa [← List.cons_append, htext] at hstart

theorem sameStart_inline (h : HasStart line) {text : List Char} (hopens : opensFlow text = true) :
    SameStart line ((Layout.of line).lead ++ text ++ (Layout.of line).trailing) := by
  cases hkey : (Layout.of line).key with
  | some parts =>
    obtain ⟨key, gap⟩ := parts
    have hstart := sameStart_key hkey (gap ++ text ++ (Layout.of line).trailing)
    simpa [Layout.lead, hkey] using hstart
  | none =>
    have hvalue := h.resolve_right fun hne => hne hkey
    cases text with
    | nil => contradiction
    | cons d ds =>
      have hstart := sameStart_value hkey hvalue (isBlank_of_opensFlow_cons hopens) (ds ++ (Layout.of line).trailing)
      simpa [Layout.lead, hkey] using hstart

theorem sameStart_name (hkey : (Layout.of line).key = none) (hopens : opensFlow (Layout.of line).value = true)
    {name : String} (hname : IsName name) (rest : List Char) :
    SameStart line ((Layout.of line).opening ++ (name.toList ++ ':' :: rest)) := by
  cases hchars : name.toList with
  | nil => exact sameStart_value hkey hopens (by decide) rest
  | cons d ds =>
    have hd : isNameChar d = true := hname d (by rw [hchars]; exact List.mem_cons_self)
    have hblank : Text.isBlank d = false := by
      obtain hd | hd := Bool.or_eq_true_iff.1 hd
      · exact isBlank_of_isAlphanum hd
      · rw [beq_iff_eq.1 hd]
        decide
    exact sameStart_value hkey hopens hblank _

theorem sameStart_blockHeader (h : HasStart line) (hvalue : (Layout.of line).value ≠ []) {names : List String}
    (hne : names ≠ []) (hnames : ∀ name ∈ names, IsName name) (indicator : Option (List Char)) :
    ∃ first more, blockHeader (Layout.of line) names indicator = first :: more ∧ SameStart line first := by
  cases hkey : (Layout.of line).key with
  | some parts =>
    obtain ⟨key, gap⟩ := parts
    have hgap := ((Layout.parts_of hvalue).2 key gap hkey).1
    cases indicator with
    | none => exact ⟨_, _, blockHeader_key hkey hgap names, sameStart_key hkey _⟩
    | some indicator => exact ⟨_, _, blockHeader_key_announced hkey hgap hne indicator, sameStart_key hkey _⟩
  | none =>
    have hopens := h.resolve_right fun hne => hne hkey
    obtain ⟨name, names, rfl⟩ := List.exists_cons_of_ne_nil hne
    have hname : IsName name := hnames name List.mem_cons_self
    cases indicator with
    | none => exact ⟨_, _, blockHeader_value hkey name names, sameStart_name hkey hopens hname _⟩
    | some indicator =>
      cases names with
      | nil => exact ⟨_, _, blockHeader_value_announced hkey name indicator, sameStart_name hkey hopens hname _⟩
      | cons other others =>
        exact ⟨_, _, blockHeader_values_announced hkey name (List.cons_ne_nil _ _) indicator,
          sameStart_name hkey hopens hname _⟩

end Starts

theorem isBlankText_trimStart (cs : List Char) : Text.isBlankText (Text.trimStart cs) = Text.isBlankText cs := by
  have hblanks : (cs.takeWhile Text.isBlank).all Text.isBlank = true :=
    List.all_eq_true.2 fun c hc => List.mem_takeWhile_imp hc
  calc Text.isBlankText (Text.trimStart cs)
      = (cs.takeWhile Text.isBlank ++ cs.dropWhile Text.isBlank).all Text.isBlank := by
        rw [List.all_append, hblanks, Bool.true_and]
        rfl
    _ = Text.isBlankText cs := by rw [List.takeWhile_append_dropWhile]; rfl

theorem isBlankText_getLast_reindent {lines : List SourceLine}
    (h : ∀ line ∈ lines.getLast?, Text.isBlankText line.text = false) (column : Nat) :
    ∀ line ∈ ((reindent column lines).map SourceLine.text).getLast?, Text.isBlankText line = false := by
  rw [reindent, List.map_map, List.getLast?_map]
  intro line hline
  obtain ⟨source, hsource, rfl⟩ := Option.map_eq_some_iff.1 hline
  have hfilled := h source hsource
  simp only [Function.comp_apply, hfilled, Bool.false_eq_true, if_false]
  rw [isBlankText_spaces, isBlankText_trimStart, hfilled]

theorem not_mem_reindent {c : Char} (hc : c ≠ ' ') {lines : List SourceLine} (h : ∀ line ∈ lines, c ∉ line.text)
    (column : Nat) : ∀ line ∈ reindent column lines, c ∉ line.text := by
  intro line hline
  obtain ⟨source, hsource, rfl⟩ := List.mem_map.1 hline
  split
  · simp
  · simp only [List.mem_append, not_or]
    exact ⟨fun hmem => hc (List.eq_of_mem_replicate hmem),
      fun hmem => h source hsource ((List.dropWhile_sublist _).subset hmem)⟩

theorem Layout.ownerColumn_le (layout : Layout) : layout.ownerColumn ≤ layout.opening.length := by
  have hdash : ∀ column ∈ layout.dashColumn, column ≤ layout.opening.length := by
    intro column hcolumn
    have hlength := (List.dropWhile_sublist (l := layout.opening.reverse) (· != '-')).length_le
    rw [List.length_reverse] at hlength
    simp only [Layout.dashColumn] at hcolumn
    split at hcolumn
    · contradiction
    · cases hcolumn
      omega
  have hindent : layout.indent ≤ layout.opening.length := (List.takeWhile_sublist _).length_le
  rw [Layout.ownerColumn]
  split
  · rename_i column _ hkey
    rw [Layout.keyColumn, Option.map_eq_some_iff] at hkey
    obtain ⟨-, -, rfl⟩ := hkey
    exact le_refl _
  · rename_i column _ hcolumn
    exact hdash column hcolumn
  · exact hindent

structure Settled (text : List Char) (queue : List SourceLine) (outcome : Outcome) : Prop where
  stable {rest : List (List Char)} (hrun : normalizeLines .standard outcome.queue = .ok rest) (hrest : IsStable rest)
    (hstart : firstIndentation rest = firstIndentation (outcome.queue.map SourceLine.text)) : IsStable (outcome.lines ++ rest)
  starts : outcome = ⟨[text], queue⟩ ∨ ∃ first more, outcome.lines = first :: more ∧ SameStart text first
  single (htext : '\'' ∉ text) (hqueue : ∀ line ∈ queue, '\'' ∉ line.text) :
    (∀ line ∈ outcome.lines, '\'' ∉ line) ∧ ∀ line ∈ outcome.queue, '\'' ∉ line.text

theorem settled_of_isFixed {text : List Char} (h : IsFixed text) (queue : List SourceLine) :
    Settled text queue ⟨[text], queue⟩ where
  stable _ hrest _ := hrest.cons h
  starts := .inl rfl
  single htext hqueue := ⟨List.forall_mem_singleton.2 htext, hqueue⟩

/-- A header and a body that is moved below it hold no single quote if the line and the queue hold none. -/
theorem not_mem_block {line : List Char} {queue : List SourceLine} {names : List String} {indicator : Option (List Char)}
    (hnames : ∀ name ∈ names, IsName name) (hindicator : ∀ text ∈ indicator, isBlockIndicator text = true)
    (hline : '\'' ∉ line) (hqueue : ∀ line ∈ queue, '\'' ∉ line.text) (owner column : Nat) (underKey : Bool) :
    (∀ header ∈ blockHeader (Layout.of line) names indicator, '\'' ∉ header) ∧
      (∀ line ∈ reindent column (bodyOf owner underKey queue), '\'' ∉ line.text) ∧
        ∀ line ∈ queue.drop (bodyOf owner underKey queue).length, '\'' ∉ line.text := by
  have hheader := not_mem_blockHeader (by decide) (by decide) ((Layout.text_of line).symm ▸ hline)
    (not_mem_names hnames rfl) fun text htext hmem => ne_of_mem_indicator (hindicator text htext) hmem rfl rfl rfl
  exact ⟨hheader, not_mem_reindent (by decide) (fun other hother => hqueue other (mem_of_mem_bodyOf hother).1) column,
    fun other hother => hqueue other (List.mem_of_mem_drop hother)⟩

/-- A block that is put below a header stays there, whether a scalar or lines that are still to be read. -/
theorem settled_block {number : Nat} {line : List Char} {names : List String} {indicator : Option (List Char)}
    {queue : List SourceLine} {outcome : Outcome}
    (h : place .standard number (Layout.of line) (.block names indicator) queue = .ok outcome)
    (hsound : (Expansion.block names indicator).IsSound line) (hstart : HasStart line) : Settled line queue outcome := by
  obtain ⟨hvalue, hne, hnames, hindicator⟩ := hsound
  obtain ⟨first, more, hheader, hfirst⟩ :=
    sameStart_blockHeader hstart hvalue hne hnames indicator
  have hmultiline : Options.standard.isEnabled .multiline = true := rfl
  let moved := reindent (blockColumn (Layout.of line) names)
    (bodyOf (Layout.of line).ownerColumn (Layout.of line).keyColumn.isSome queue)
  simp only [place, hmultiline, Bool.not_true, Bool.false_eq_true, if_false] at h
  -- The body below a scalar is put out with its header; any other body waits, and is settled by later steps.
  cases indicator with
  | some indicator =>
    simp only [Option.isSome_some, if_true, Except.ok.injEq] at h
    rw [← h]
    obtain ⟨column, hle, hlt, hannounces⟩ := announces_blockHeader hvalue hne hnames (hindicator indicator rfl)
    refine ⟨fun _ hrest hstart => ?_, .inr ⟨first, more ++ moved.map SourceLine.text, ?_, hfirst⟩,
      fun hline hqueue => ?_⟩
    · rw [List.append_assoc]
      refine hannounces.isStable (hindicator indicator rfl) ?_ (isBlankText_getLast_reindent
        (isBlankText_getLast_bodyOf _ _ _) _) (fun n hn => ?_) hrest
      · intro other hother
        obtain ⟨source, hsource, rfl⟩ := List.mem_map.1 hother
        exact belongs_of_mem_reindent hsource hlt
      · rw [hstart] at hn
        exact (firstIndentation_drop_bodyOf _ _ _ n hn).trans ((Layout.ownerColumn_le _).trans hle)
    · simp only [hheader, List.cons_append]
      rfl
    · obtain ⟨hheaders, hmoved, hrest⟩ := not_mem_block hnames hindicator hline hqueue _ _ _
      refine ⟨fun other hother => ?_, hrest⟩
      cases List.mem_append.1 hother with
      | inl hother => exact hheaders other hother
      | inr hother =>
        obtain ⟨source, hsource, rfl⟩ := List.mem_map.1 hother
        exact hmoved source hsource
  | none =>
    simp only [Option.isSome_none, Bool.false_eq_true, if_false] at h
    split at h
    · contradiction
    · cases h
      refine ⟨fun _ hrest _ => ?_, .inr ⟨first, more, hheader, hfirst⟩, fun hline hqueue => ?_⟩
      · exact .append (fun header hmem => (keyLine_of_mem_blockHeader hvalue hne hnames header hmem).isFixed) hrest
      · obtain ⟨hheaders, hmoved, hrest⟩ := not_mem_block hnames hindicator hline hqueue _ _ _
        refine ⟨hheaders, fun other hother => ?_⟩
        cases List.mem_append.1 hother with
        | inl hother => exact hmoved other hother
        | inr hother => exact hrest other hother

theorem settled_place {number : Nat} {line : List Char} {expansion : Expansion} {queue : List SourceLine}
    {outcome : Outcome} (h : place .standard number (Layout.of line) expansion queue = .ok outcome)
    (hsound : expansion.IsSound line) (hsettled : expansion.IsSettled line)
    (hstart : expansion ≠ .unchanged → HasStart line) : Settled line queue outcome := by
  cases expansion with
  | unchanged =>
    cases h
    rw [Layout.text_of]
    exact settled_of_isFixed hsettled queue
  | inline text =>
    obtain ⟨-, hopens, -⟩ := hsound
    have helongate : Options.standard.isEnabled .elongate = true := rfl
    simp only [place, helongate, Bool.true_or, if_true, Except.ok.injEq] at h
    rw [← h]
    refine ⟨fun _ hrest _ => hrest.cons hsettled.1,
      .inr ⟨_, [], rfl, sameStart_inline (hstart Expansion.noConfusion) hopens⟩, fun hline hqueue => ⟨?_, hqueue⟩⟩
    have htext := hsettled.2 hline
    rw [← Layout.text_of line, Layout.text, List.mem_append, List.mem_append, not_or, not_or] at hline
    simpa using ⟨hline.1.1, htext, hline.2⟩
  | block names indicator => exact settled_block h hsound (hstart Expansion.noConfusion)

theorem Form.key_of_longForm {options : Options} {layout : Layout} {name : String} {argument : List Char}
    (h : Form.of options layout = .longForm name argument) : layout.key ≠ none := by
  intro hkey
  have hcolumn : layout.keyColumn.isSome = false := by simp [Layout.keyColumn, hkey]
  rw [Form.of, hcolumn, Bool.and_false] at h
  simp only [Bool.false_eq_true, if_false] at h
  split at h
  · contradiction
  · split at h <;> contradiction

theorem opensFlow_of_expandValue {value : List Char} {expansion : Expansion} (h : expandValue value = .ok expansion)
    (hne : expansion ≠ .unchanged) : opensFlow value = true := by
  rw [expandValue_eq] at h
  split at h
  · rename_i hmark
    exact (Bool.and_eq_true_iff.1 hmark).2
  · cases h
    contradiction

theorem settled_settle {number : Nat} {text : List Char} {queue : List SourceLine} {outcome : Outcome}
    (h : settle .standard number text queue = .ok outcome) (hform : Form.of .standard (Layout.of text) ≠ .openFlow)
    (hsteady : isSteadyText text = true) (hline : '\n' ∉ text) : Settled text queue outcome := by
  simp only [settle] at h
  simp only [isSteadyText] at hsteady
  cases hcase : Form.of .standard (Layout.of text) with
  | openFlow => exact absurd hcase hform
  | blockScalar =>
    have hindicator := Form.of_blockScalar hcase
    have hvalue : (Layout.of text).value ≠ [] := by
      intro hnil
      rw [hnil] at hindicator
      contradiction
    rw [hcase] at h
    cases h
    refine ⟨fun _ hrest hstart => ?_, .inr ⟨text, _, rfl, .refl (isBlankText_of_value hvalue)⟩, fun htext hqueue =>
      ⟨List.forall_mem_cons.2 ⟨htext, fun other hother => ?_⟩, fun other hother => hqueue other (List.mem_of_mem_drop hother)⟩⟩
    -- The body ends where it ended before, since the first line behind it keeps its indentation.
    · refine hrest.scalar hindicator (fun other hother => ?_) ?_ (fun n hn => ?_)
      · obtain ⟨source, hsource, rfl⟩ := List.mem_map.1 hother
        exact (mem_of_mem_bodyOf hsource).2
      · simpa using isBlankText_getLast_bodyOf (Layout.of text).ownerColumn false queue
      · rw [hstart] at hn
        exact firstIndentation_drop_bodyOf _ _ _ n hn
    · obtain ⟨source, hsource, rfl⟩ := List.mem_map.1 hother
      exact hqueue source (mem_of_mem_bodyOf hsource).1
  | longForm name argument =>
    have hlong := Form.of_longForm hcase
    obtain ⟨hvalue, hname, -⟩ := splitLongForm_ok hlong
    have hargument : '\n' ∉ argument := not_mem_argument hlong (not_mem_value hline)
    simp only [hcase] at h hsteady
    cases hexpand : expandLongForm name argument with
    | error fault =>
      rw [hexpand] at h
      contradiction
    | ok expansion =>
      rw [hexpand] at h
      exact settled_place h (isSound_expandLongForm hname hvalue hargument hexpand)
        (isSettled_expandLongForm hline hlong hsteady hexpand) fun _ => .inr (Form.key_of_longForm hcase)
  | other =>
    simp only [hcase] at h hsteady
    cases hexpand : expandValue (Layout.of text).value with
    | error fault =>
      rw [hexpand] at h
      contradiction
    | ok expansion =>
      rw [hexpand] at h
      have hvalue (hmark : (hasMark (Layout.of text).value && opensFlow (Layout.of text).value) = true) :
          isSteadyValue (Layout.of text).value = true := by simpa [hmark] using hsteady
      exact settled_place h (isSound_expandValue hline hexpand) (isSettled_expandValue hline hcase hvalue hexpand)
        fun hne => .inl (opensFlow_of_expandValue hexpand hne)

theorem Form.of_openFlow {options : Options} {layout : Layout} (h : Form.of options layout = .openFlow) :
    opensFlow layout.value = true ∧ 0 < bracketBalance layout.value := by
  rw [Form.of] at h
  split at h
  · contradiction
  · split at h
    · contradiction
    · split at h
      · rename_i hflow
        simpa using hflow
      · contradiction

section Joined

variable {text joined : List Char} {queue taken rest : List SourceLine}

theorem not_mem_joined (h : joinFlow ((Layout.of text).lead ++ (Layout.of text).value) queue = some (joined, taken, rest))
    {c : Char} (hspace : c ≠ ' ') (htext : c ∉ text) (hqueue : ∀ other ∈ queue, c ∉ other.text) : c ∉ joined := by
  obtain ⟨hsplit, hchars, -⟩ := joinFlow_ok h
  intro hmem
  obtain hmem | hmem | ⟨other, hother, hmem⟩ := hchars c hmem
  · refine htext ?_
    rw [← Layout.text_of text]
    exact List.mem_append_left _ hmem
  · exact hspace hmem
  · exact hqueue other (hsplit ▸ List.mem_append_left _ hother) (mem_of_mem_pieceOf hmem)

theorem sameStart_joined (hopens : opensFlow (Layout.of text).value = true)
    (h : (Layout.of text).lead ++ (Layout.of text).value <+: joined) : SameStart text joined := by
  obtain ⟨behind, hbehind⟩ := h
  cases hcs : (Layout.of text).value with
  | nil =>
    rw [hcs] at hopens
    contradiction
  | cons c cs =>
    have hc : Text.isBlank c = false := isBlank_of_opensFlow_cons (hcs ▸ hopens)
    have hstart := SameStart.of_append (Layout.of text).lead hc hc (cs ++ (Layout.of text).trailing) (cs ++ behind)
    have htext := Layout.text_of text
    rw [Layout.text, hcs, List.append_assoc] at htext
    rw [hcs, List.append_assoc] at hbehind
    rwa [← List.cons_append, htext, ← List.cons_append, hbehind] at hstart

end Joined

theorem settled_step {line : SourceLine} {queue : List SourceLine} {outcome : Outcome}
    (h : step .standard line queue = .ok outcome) (hsteady : IsSteadyLine line.text queue) (hline : '\n' ∉ line.text)
    (hqueue : AreSingle queue) : Settled line.text queue outcome := by
  simp only [IsSteadyLine] at hsteady
  -- Only an open collection looks at the lines behind it. It is joined with a mark in it, or put out line by line.
  by_cases hform : Form.of .standard (Layout.of line.text) = .openFlow
  · rw [if_pos hform] at hsteady
    have hopens := (Form.of_openFlow hform).1
    have hvalue := ne_nil_of_opensFlow hopens
    cases hjoin : joinFlow ((Layout.of line.text).lead ++ (Layout.of line.text).value) queue with
    | none =>
      rw [step_unjoined hform rfl hjoin] at h
      rw [hjoin] at hsteady
      split at h
      · contradiction
      · rename_i hmark
        cases h
        exact ⟨fun hrun hrest _ => hrest.openFlow hform (by simpa using hmark) (hsteady _ hrun), .inl rfl,
          fun htext hqueue => ⟨List.forall_mem_singleton.2 htext, hqueue⟩⟩
    | some result =>
      obtain ⟨joined, taken, rest⟩ := result
      rw [step_joined hform rfl hjoin] at h
      rw [hjoin] at hsteady
      simp only at hsteady
      obtain ⟨hsplit, -, -⟩ := joinFlow_ok hjoin
      by_cases hmark : hasMark joined = true
      · rw [if_pos hmark] at h
        obtain ⟨hinitial, hclosed⟩ := joinFlow_closes hjoin
        have hform' : Form.of .standard (Layout.of joined) ≠ .openFlow := by
          intro hform'
          have hopen : isOpen joined = true := decide_eq_true (Form.of_openFlow hform').2
          rw [hclosed] at hopen
          contradiction
        have hsettled := settled_settle h hform' (hsteady hmark) (not_mem_joined hjoin (by decide) hline hqueue)
        have hsame := sameStart_joined hopens hinitial
        refine ⟨hsettled.stable, .inr ?_, fun htext hqueue =>
          hsettled.single (not_mem_joined hjoin (by decide) htext hqueue)
            fun other hother => hqueue other (hsplit ▸ List.mem_append_right _ hother)⟩
        obtain heq | ⟨first, more, hlines, hfirst⟩ := hsettled.starts
        · exact ⟨joined, [], by rw [heq], hsame⟩
        · exact ⟨first, more, hlines, hsame.trans hfirst⟩
      · rw [if_neg hmark] at h
        cases h
        refine ⟨fun _ hrest _ => ?_, .inr ⟨_, _, rfl, .refl (isBlankText_of_value hvalue)⟩, fun htext hqueue => ?_⟩
        · exact hrest.collection hform hjoin (by simpa using hmark)
        · rw [hsplit] at hqueue
          refine ⟨List.forall_mem_cons.2 ⟨htext, fun other hother => ?_⟩, fun other hother => hqueue other (by simp [hother])⟩
          obtain ⟨source, hsource, rfl⟩ := List.mem_map.1 hother
          exact hqueue source (by simp [hsource])
  · rw [step, if_neg hform] at h
    rw [if_neg hform] at hsteady
    exact settled_settle h hform hsteady hline

structure RunSettled (queue : List SourceLine) (lines : List (List Char)) : Prop where
  stable : IsStable lines
  starts : firstIndentation lines = firstIndentation (queue.map SourceLine.text)
  single (h : ∀ line ∈ queue, '\'' ∉ line.text) : ∀ line ∈ lines, '\'' ∉ line
  filled (h : queue ≠ []) : lines ≠ []

theorem Settled.run {line : SourceLine} {queue : List SourceLine} {outcome : Outcome} {rest : List (List Char)}
    (h : Settled line.text queue outcome) (hrun : normalizeLines .standard outcome.queue = .ok rest)
    (hrest : RunSettled outcome.queue rest) : RunSettled (line :: queue) (outcome.lines ++ rest) where
  stable := h.stable hrun hrest.stable hrest.starts
  starts := by
    obtain rfl | ⟨first, more, hlines, hfirst⟩ := h.starts
    · rw [List.singleton_append, List.map_cons]
      cases hblank : Text.isBlankText line.text with
      | true =>
        rw [firstIndentation_of_isBlankText hblank, firstIndentation_of_isBlankText hblank]
        exact hrest.starts
      | false => rw [firstIndentation_of_not_isBlankText hblank, firstIndentation_of_not_isBlankText hblank]
    · rw [hlines, List.cons_append, List.map_cons]
      exact hfirst.firstIndentation_eq _ _
  single hsingle := by
    rw [List.forall_mem_cons] at hsingle
    obtain ⟨hlines, hqueue⟩ := h.single hsingle.1 hsingle.2
    intro other hother
    exact (List.mem_append.1 hother).elim (hlines other) (hrest.single hqueue other)
  filled _ := by
    obtain rfl | ⟨first, more, hlines, -⟩ := h.starts
    · simp
    · simp [hlines]

theorem SteadyRun.settled {queue : List SourceLine} (h : SteadyRun queue) {lines : List (List Char)}
    (hrun : normalizeLines .standard queue = .ok lines) (hqueue : AreSingle queue) : RunSettled queue lines := by
  -- Along the run: what a step puts out is settled in front of what the rest of the run puts out.
  induction h generalizing lines with
  | nil =>
    rw [normalizeLines_nil] at hrun
    cases hrun
    exact ⟨isStable_nil, rfl, fun _ => by simp, fun h => absurd rfl h⟩
  | @step line queue outcome h hstep _ ih =>
    have hline : '\n' ∉ line.text := hqueue line List.mem_cons_self
    have hbehind : AreSingle queue := hqueue.sublist fun other hother => List.mem_cons_of_mem line hother
    rw [normalizeLines_of_step hstep] at hrun
    cases hrest : normalizeLines .standard outcome.queue with
    | error fault =>
      rw [hrest] at hrun
      contradiction
    | ok rest =>
      rw [hrest] at hrun
      cases hrun
      exact (settled_step hstep h hline hbehind).run hrest (ih hrest (isTidy_step hstep hline hbehind).queue)

/-- Normalizing a steady document once more changes nothing. -/
theorem normalize_normalize {text out : String} (h : normalize .standard text = .ok out) (hsteady : IsSteady text) :
    normalize .standard out = .ok out := by
  have htext : normalizeText .standard text.toList = .ok out.toList := by
    rw [normalize] at h
    split at h
    · contradiction
    · rename_i htext
      cases h
      rw [htext, String.toList_ofList]
  rw [normalizeText] at htext
  split at htext
  · contradiction
  · rename_i lines hrun
    have hout : joinLines lines = out.toList := Except.ok.inj htext
    have hqueue := areSingle_numberLines 1 (doubleQuotes text.toList)
    have htexts := map_text_numberLines 1 (splitLines (doubleQuotes text.toList))
    have hfilled : numberLines 1 (splitLines (doubleQuotes text.toList)) ≠ [] := by
      intro hnil
      rw [hnil, splitLines_eq] at htexts
      exact List.splitOn_ne_nil _ _ htexts.symm
    have hsingle : ∀ line ∈ numberLines 1 (splitLines (doubleQuotes text.toList)), '\'' ∉ line.text := by
      intro line hline hmem
      have htext : line.text ∈ splitLines (doubleQuotes text.toList) := htexts ▸ List.mem_map_of_mem hline
      exact not_mem_doubleQuotes text.toList (mem_of_mem_splitLines line.text htext _ hmem).1
    have hsettled := SteadyRun.settled hsteady hrun hqueue
    have hlines : splitLines out.toList = lines := by
      rw [← hout, splitLines_joinLines (hsettled.filled hfilled) (single_normalizeLines hrun hqueue)]
    have hquotes : doubleQuotes out.toList = out.toList := by
      refine doubleQuotes_of_not_mem fun hmem => ?_
      rw [← hout] at hmem
      obtain hbreak | ⟨line, hline, hquote⟩ := mem_joinLines hmem
      · contradiction
      · exact hsettled.single hsingle line hline hquote
    have hagain := hsettled.stable (numberLines 1 lines) (map_text_numberLines 1 lines)
    rw [normalize, normalizeText, hquotes, hlines, hagain]
    simp only [hout, String.ofList_toList]

/-- A reference is written out in one run. -/
theorem normalize_normalize_reference :
    IsSteady "A: !Ref b" ∧ normalize .standard "A: !Ref b" = .ok "A: \x7b \"Ref\" : \"b\" \x7d" ∧
      normalize .standard "A: \x7b \"Ref\" : \"b\" \x7d" = .ok "A: \x7b \"Ref\" : \"b\" \x7d" := by
  have hlayout : Layout.of "A: !Ref b".toList = ⟨[], some (['A'], [' ']), "!Ref b".toList, []⟩ := by rfl
  have hform : Form.of .standard (Layout.of "A: !Ref b".toList) = .other := by decide
  have hread : flowAt false "!Ref b".toList = .ok (.call .ref (.plain ['b']), []) := by
    have htag : Intrinsic.ofTag? (String.ofList ("Ref b".toList.takeWhile Char.isAlphanum)) = some .ref := by rfl
    have hargument : afterName "Ref b".toList = ['b'] := rfl
    have hplain : flowAt false ['b'] = .ok (.plain ['b'], []) := by
      rw [flowAt_eq]
      rfl
    refine (flowAt_mark false "Ref b".toList).trans ?_
    rw [tagAt_eq, if_neg (by decide), htag, hargument, hplain]
    rfl
  have hexpand : expandValue (Layout.of "A: !Ref b".toList).value = .ok (.inline "\x7b \"Ref\" : \"b\" \x7d".toList) := by
    rw [hlayout]
    exact expandValue_of_flowAt (by decide) rfl hread rfl
  have hstep := step_of_expandValue hform hexpand 1 []
  rw [hlayout] at hstep
  have hsteady : IsSteady "A: !Ref b" := by
    have hvalue : isSteadyValue "!Ref b".toList = true := by
      rw [isSteadyValue, hread]
      rfl
    have hline : isSteadyText "A: !Ref b".toList = true := by
      simp only [isSteadyText, hform]
      rw [hlayout]
      exact Bool.or_eq_true_iff.2 (.inr hvalue)
    rw [IsSteady, numberLines_of_not_mem (by decide) (by decide)]
    refine .step ?_ hstep .nil
    rw [IsSteadyLine, hform]
    exact hline
  have hout : normalize .standard "A: !Ref b" = .ok "A: \x7b \"Ref\" : \"b\" \x7d" := by
    rw [normalize, normalizeText_of_step (by decide) (by decide) hstep]
    rfl
  exact ⟨hsteady, hout, normalize_normalize hout hsteady⟩

/-- A tag that is kept without a value gains a space with every run. -/
theorem normalize_bareTag :
    normalize .standard "A: !!str" = .ok "A: !!str " ∧ normalize .standard "A: !!str " = .ok "A: !!str  " := by
  have hread : flowAt false "!!str".toList = .ok (.kept "!!str".toList (.plain []), []) := by
    have hend : "!str".toList.dropWhile (fun c => !isTagEnd c) = [] := rfl
    refine (flowAt_mark false "!str".toList).trans ?_
    rw [tagAt_eq, if_pos (by decide), hend, flowAt_eq]
    rfl
  have hexpand : expandValue "!!str".toList = .ok (.inline "!!str ".toList) := by
    rw [expandValue_eq, hread]
    rfl
  have hstep {line : List Char} (trailing : List Char)
      (hlayout : Layout.of line = ⟨[], some (['A'], [' ']), "!!str".toList, trailing⟩) :
      step .standard ⟨1, line⟩ [] = .ok ⟨["A: !!str ".toList ++ trailing], []⟩ := by
    have hform : Form.of .standard (Layout.of line) = .other := by
      rw [hlayout]
      rfl
    have hstep := step_of_expandValue hform (by rw [hlayout]; exact hexpand) 1 []
    rwa [hlayout] at hstep
  have hfirst : normalizeText .standard "A: !!str".toList = .ok "A: !!str ".toList :=
    normalizeText_of_step (by decide) (by decide) (hstep [] rfl)
  have hsecond : normalizeText .standard "A: !!str ".toList = .ok "A: !!str  ".toList :=
    normalizeText_of_step (by decide) (by decide) (hstep [' '] rfl)
  refine ⟨?_, ?_⟩
  · rw [normalize, hfirst]
    rfl
  · rw [normalize, hsecond]
    rfl
end CloudTemplate.Shorthand
