import CloudTemplate.Proofs.Shorthand.Outcomes
import CloudTemplate.Proofs.Shorthand.Renumbering
/-! Runs over lines with others behind them. A line that takes lines of its own, all of which stand before those others,
does the same with them and without. Where every line of a run does, the run over the others follows it, and a document of
two such parts is normalized part by part. -/
namespace CloudTemplate.Shorthand

def Expansion.isBlock : Expansion → Bool
  | .block .. => true
  | _ => false

def expansionOf (options : Options) (text : List Char) : Except FlowFault Expansion :=
  match Form.of options (Layout.of text) with
  | .longForm name argument => expandLongForm name argument
  | _ => expandValue (Layout.of text).value

def takesBlock (options : Options) (text : List Char) : Bool :=
  Form.of options (Layout.of text) == .blockScalar || (expansionOf options text).toOption.any Expansion.isBlock

/-- The lines that belong to a line. Items at the column of its key are among them, unless it announces a block scalar. -/
def ownBody (options : Options) (text : List Char) (queue : List SourceLine) : List SourceLine :=
  bodyOf (Layout.of text).ownerColumn
    (Form.of options (Layout.of text) != .blockScalar && (Layout.of text).keyColumn.isSome) queue

def Outcome.append (outcome : Outcome) (rest : List SourceLine) : Outcome :=
  { outcome with queue := outcome.queue ++ rest }

theorem drop_bodyOf_append (owner : Nat) (underKey : Bool) (queue rest : List SourceLine) :
    (queue ++ rest).drop (bodyOf owner underKey queue).length = queue.drop (bodyOf owner underKey queue).length ++ rest :=
  List.drop_append_of_le_length (length_bodyOf_le owner underKey queue)

section Steps

variable {options : Options} {queue rest : List SourceLine}

theorem settle_of_ne_blockScalar {text : List Char} (h : Form.of options (Layout.of text) ≠ .blockScalar) (number : Nat)
    (queue : List SourceLine) :
    settle options number text queue =
      (numbered number (expansionOf options text)).bind fun expansion =>
        place options number (Layout.of text) expansion queue := by
  simp only [settle, expansionOf]
  cases hform : Form.of options (Layout.of text) with
  | blockScalar => contradiction
  | longForm | openFlow | other => rfl

theorem place_append {layout : Layout} {expansion : Expansion}
    (hbody : expansion.isBlock = true →
      bodyOf layout.ownerColumn layout.keyColumn.isSome (queue ++ rest) =
        bodyOf layout.ownerColumn layout.keyColumn.isSome queue) (number : Nat) :
    place options number layout expansion (queue ++ rest) =
      (place options number layout expansion queue).map (·.append rest) := by
  cases expansion with
  | unchanged => rfl
  | inline value =>
    simp only [place]
    split <;> rfl
  | block functions indicator =>
    simp only [place, hbody rfl, drop_bodyOf_append]
    split
    · rfl
    · split
      · rfl
      · split
        · rfl
        · rw [← List.append_assoc]
          rfl

theorem settle_append {text : List Char}
    (hbody : takesBlock options text = true → ownBody options text (queue ++ rest) = ownBody options text queue)
    (number : Nat) :
    settle options number text (queue ++ rest) = (settle options number text queue).map (·.append rest) := by
  by_cases hform : Form.of options (Layout.of text) = .blockScalar
  · have hbody := hbody (by simp [takesBlock, hform])
    simp only [ownBody, hform, bne_self_eq_false, Bool.false_and] at hbody
    simp only [settle, hform, hbody, drop_bodyOf_append]
    rfl
  · rw [settle_of_ne_blockScalar hform, settle_of_ne_blockScalar hform]
    cases hexpansion : expansionOf options text with
    | error fault => rfl
    | ok expansion =>
      refine place_append (fun hblock => ?_) number
      have hbody := hbody (by simp [takesBlock, hexpansion, Except.toOption, hblock])
      simpa only [ownBody, bne_iff_ne.2 hform, Bool.true_and] using hbody

/-- What a step makes of a line goes by the lines in front of others, where its own lines end before them. -/
theorem step_append {line : SourceLine} (hform : Form.of options (Layout.of line.text) ≠ .openFlow)
    (hbody : takesBlock options line.text = true →
      ownBody options line.text (queue ++ rest) = ownBody options line.text queue) :
    step options line (queue ++ rest) = (step options line queue).map (·.append rest) := by
  simp only [step, if_neg hform]
  exact settle_append hbody line.number

end Steps

inductive ApartRun (options : Options) (rest : List SourceLine) : List SourceLine → Prop
  | nil : ApartRun options rest []
  | cons {line : SourceLine} {queue : List SourceLine}
      (hstep : step options line (queue ++ rest) = (step options line queue).map (·.append rest))
      (hnext : ∀ outcome, step options line queue = .ok outcome → ApartRun options rest outcome.queue) :
      ApartRun options rest (line :: queue)

/-- The run over the other lines comes behind. -/
theorem ApartRun.run_append {options : Options} {queue rest : List SourceLine} (h : ApartRun options rest queue) :
    normalizeLines options (queue ++ rest) =
      (normalizeLines options queue).bind fun lines => (normalizeLines options rest).map (lines ++ ·) := by
  induction h with
  | nil =>
    rw [normalizeLines_nil]
    cases hrun : normalizeLines options rest <;> simp [hrun, Except.bind, Except.map]
  | @cons line queue hstep _ ih =>
    rw [List.cons_append, normalizeLines_cons, normalizeLines_cons, hstep]
    cases hqueue : step options line queue with
    | error fault => rfl
    | ok outcome =>
      simp only [Except.map, Outcome.append]
      rw [ih outcome hqueue]
      cases normalizeLines options outcome.queue with
      | error fault => rfl
      | ok lines => cases normalizeLines options rest <;> simp [Except.bind, Except.map]

/-- A line that takes all lines up to some others is done with them in one step. -/
theorem ApartRun.of_step {options : Options} {line : SourceLine} {later rest : List SourceLine} {lines : List (List Char)}
    (hself : step options line later = .ok ⟨lines, []⟩) (hrest : step options line (later ++ rest) = .ok ⟨lines, rest⟩) :
    ApartRun options rest (line :: later) ∧ normalizeLines options (line :: later) = .ok lines := by
  refine ⟨.cons ?_ fun outcome houtcome => ?_, ?_⟩
  · rw [hself, hrest]
    rfl
  · rw [hself] at houtcome
    cases houtcome
    exact .nil
  · rw [normalizeLines_of_step hself, normalizeLines_nil]
    simp [Except.map]

def linesOf (text : String) : List (List Char) := splitLines (doubleQuotes text.toList)

theorem splitLines_doubleQuotes_append (a b : String) :
    splitLines (doubleQuotes (a ++ "\n" ++ b).toList) =
      splitLines (doubleQuotes a.toList) ++ splitLines (doubleQuotes b.toList) := by
  have hbreak : doubleQuotes (a ++ "\n" ++ b).toList = doubleQuotes a.toList ++ '\n' :: doubleQuotes b.toList := by
    simp [doubleQuotes]
  rw [hbreak, splitLines_append]

theorem numberLines_ne_nil (first : Nat) (cs : List Char) : numberLines first (splitLines cs) ≠ [] := by
  intro hnil
  have htexts := map_text_numberLines first (splitLines cs)
  rw [hnil] at htexts
  exact splitLines_ne_nil cs htexts.symm

theorem linesOf_of_not_mem {text : String} (hbreak : '\n' ∉ text.toList) (hquote : '\'' ∉ text.toList) :
    linesOf text = [text.toList] := by
  have hnumbers := congrArg (List.map SourceLine.text) (numberLines_of_not_mem hbreak hquote)
  rwa [map_text_numberLines] at hnumbers

theorem normalize_eq_map (options : Options) (text : String) :
    normalize options text =
      (normalizeLines options (numberLines 1 (linesOf text))).map fun lines => String.ofList (joinLines lines) := by
  rw [normalize, normalizeText, ← linesOf]
  cases normalizeLines options (numberLines 1 (linesOf text)) <;> rfl

theorem normalize_of_run {options : Options} {text : String} {lines : List (List Char)}
    (h : normalizeLines options (numberLines 1 (linesOf text)) = .ok lines) :
    normalize options text = .ok (String.ofList (joinLines lines)) := by
  rw [normalize_eq_map, h]
  rfl

/-- A run over the lines of a document behind others. -/
theorem normalizeLines_behind (options : Options) (count : Nat) (lines : List (List Char)) :
    normalizeLines options (numberLines (count + 1) lines) =
      (normalizeLines options (numberLines 1 lines)).mapError (.renumber (· + count)) := by
  rw [Nat.add_comm, numberLines_add, normalizeLines_renumber]

/-- A document of two parts, the first of which does the same with and without the second. A fault in the second names its
line in the whole document. -/
theorem normalize_parts {options : Options} {a b : String}
    (h : ApartRun options (numberLines ((linesOf a).length + 1) (linesOf b)) (numberLines 1 (linesOf a))) :
    normalize options (a ++ "\n" ++ b) =
      match normalize options a, normalize options b with
      | .error fault, _ => .error fault
      | .ok x, .ok y => .ok (x ++ "\n" ++ y)
      | .ok _, .error fault => .error ⟨(linesOf a).length + fault.line, fault.cause⟩ := by
  have hnumbers : numberLines 1 (splitLines (doubleQuotes (a ++ "\n" ++ b).toList)) =
      numberLines 1 (linesOf a) ++ numberLines ((linesOf a).length + 1) (linesOf b) := by
    rw [splitLines_doubleQuotes_append, numberLines_append, Nat.add_comm 1]
    rfl
  have hrun := h.run_append
  rw [normalizeLines_behind options (linesOf a).length, ← hnumbers] at hrun
  simp only [normalize, normalizeText, hrun]
  rw [← linesOf, ← linesOf]
  cases ha : normalizeLines options (numberLines 1 (linesOf a)) with
  | error fault => rfl
  | ok out =>
    cases hb : normalizeLines options (numberLines 1 (linesOf b)) with
    | error fault => simp only [Except.bind, Except.map, Except.mapError, LineFault.renumber, Nat.add_comm]
    | ok rest =>
      have hout := normalizeLines_ne_nil (numberLines_ne_nil 1 _) ha
      have hrest := normalizeLines_ne_nil (numberLines_ne_nil 1 _) hb
      have htext : String.ofList (joinLines (out ++ rest)) =
          String.ofList (joinLines out) ++ "\n" ++ String.ofList (joinLines rest) := by
        rw [joinLines_append hout hrest, ← String.toList_inj]
        simp
      simp only [Except.bind, Except.map, Except.mapError, htext]

end CloudTemplate.Shorthand
