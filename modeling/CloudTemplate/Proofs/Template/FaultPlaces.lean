import CloudTemplate.Template.Read
import CloudTemplate.Proofs.Shorthand.Provenance
import CloudTemplate.Proofs.Text.Positions
/-! Where a fault in YAML is shown. The position is that of the character in the text without shorthand. A column
that counts there counts in the source too, if the line is a copy, while the line is the one of the source only if as
many lines are added above it as are joined away. -/
namespace CloudTemplate

open Shorthand (TracedLine traceText added joinedAway joinLines)

def TemplateFault.IsOfTree : TemplateFault → Prop
  | .policy .. | .structure _ | .kind _ => True
  | _ => False

structure FailsOnTree {α : Type} (outcome : Except TemplateFault α) : Prop where
  isOfTree : ∀ fault, outcome = .error fault → fault.IsOfTree

namespace FailsOnTree

variable {α β : Type}

theorem ok (value : α) : FailsOnTree (.ok value) := ⟨nofun⟩

theorem error {fault : TemplateFault} (h : fault.IsOfTree) : FailsOnTree (.error fault : Except TemplateFault α) := by
  constructor
  rintro _ ⟨⟩
  exact h

theorem bind {outcome : Except TemplateFault α} {next : α → Except TemplateFault β} (h : FailsOnTree outcome)
    (hnext : ∀ value, FailsOnTree (next value)) : FailsOnTree (outcome >>= next) := by
  refine ⟨fun fault hfault => ?_⟩
  obtain hfirst | ⟨value, -, hsecond⟩ := bind_eq_error_iff.1 hfault
  · exact h.isOfTree fault hfirst
  · exact (hnext value).isOfTree fault hsecond

theorem checkPolicy (resource field : String) (value : Option Tree) :
    FailsOnTree (Template.checkPolicy resource field value) := by
  unfold Template.checkPolicy
  split
  · exact ok ()
  · split
    · exact ok ()
    · exact error trivial
  · exact error trivial

theorem checkResource (name : String) (body : Tree) : FailsOnTree (Template.checkResource name body) := by
  unfold Template.checkResource
  split
  · exact ok []
  · exact bind (checkPolicy ..) fun _ => bind (checkPolicy ..) fun _ => ok _
  · exact error trivial

theorem checkResources (resources : List (String × Tree)) : FailsOnTree (Template.checkResources resources) := by
  induction resources with
  | nil => exact ok []
  | cons resource resources ih => exact bind (checkResource ..) fun _ => bind ih fun _ => ok _

theorem readMap (value : Tree) : FailsOnTree (Template.readMap value) := by
  unfold Template.readMap
  split
  · exact ok _
  · exact error trivial

theorem readString (value : Tree) : FailsOnTree (Template.readString value) := by
  unfold Template.readString
  split
  · exact ok _
  · exact error trivial

theorem readAttribute (resource : Resource) (key : String) (value : Tree) :
    FailsOnTree (Template.readAttribute resource key value) := by
  unfold Template.readAttribute
  split
  · exact bind (readString value) fun _ => ok _
  · exact bind (readMap value) fun _ => ok _
  all_goals exact ok _

theorem readAttributes (resource : Resource) (attrs : List (String × Tree)) :
    FailsOnTree (Template.readAttributes resource attrs) := by
  induction attrs generalizing resource with
  | nil => exact ok resource
  | cons attr attrs ih => exact bind (readAttribute ..) ih

theorem readResources (resources : List (String × Entries Tree)) : FailsOnTree (Template.readResources resources) := by
  induction resources with
  | nil => exact ok []
  | cons resource resources ih => exact bind (readAttributes ..) fun _ => bind ih fun _ => ok _

theorem readSection (resources : List (String × Entries Tree)) (template : Template) (key : String) (value : Tree) :
    FailsOnTree (Template.readSection resources template key value) := by
  unfold Template.readSection
  split
  case h_8 => exact bind (readResources resources) fun _ => ok _
  all_goals first
    | exact ok _
    | exact bind (readMap value) fun _ => ok _

theorem readSections (resources : List (String × Entries Tree)) (template : Template) (root : List (String × Tree)) :
    FailsOnTree (Template.readSections resources template root) := by
  induction root generalizing template with
  | nil => exact ok template
  | cons entry root ih => exact bind (readSection ..) ih

theorem ofTree (tree : Tree) : FailsOnTree (Template.ofTree tree) := by
  unfold Template.ofTree
  split
  · dsimp only
    split
    · exact readSections ..
    · exact bind (checkResources _) fun _ => readSections ..
    · exact error trivial
  · exact error trivial

end FailsOnTree

theorem Parsed.plainText_yaml_eq_ok {options : Shorthand.Options} {source : List UInt8} {out : String}
    (h : plainText options .yaml source = .ok out) :
    ∃ text, textOf source = .ok text ∧ Shorthand.normalize options text = .ok out := by
  obtain ⟨text, htext, hout⟩ := bind_eq_ok_iff.1 h
  cases hnormalize : Shorthand.normalize options text with
  | error fault => simp [hnormalize] at hout
  | ok plain =>
    obtain rfl : plain = out := by simpa [hnormalize, pure, Except.pure] using hout
    exact ⟨text, htext, hnormalize⟩

/-- Expanding shorthand has no fault in YAML. -/
theorem Parsed.plainText_yaml_ne_error {options : Shorthand.Options} {source : List UInt8} {position : Text.Position} :
    plainText options .yaml source ≠ .error (.yaml position) := by
  intro h
  obtain htext | ⟨text, -, hout⟩ := bind_eq_error_iff.1 h
  · rw [textOf] at htext
    cases hread : Text.readUtf8 source <;> simp [hread] at htext
  · cases hnormalize : Shorthand.normalize options text <;> simp [hnormalize, pure, Except.pure] at hout

/-- A fault in YAML is one of the text without shorthand, and is shown where it stands there. -/
theorem Parsed.exists_of_read_error {options : Shorthand.Options} {source : List UInt8} {position : Text.Position}
    (h : Parsed.read options .yaml source = .error (.yaml position)) :
    ∃ text out fault, textOf source = .ok text ∧ Shorthand.normalize options text = .ok out ∧
      Yaml.readValue out = .error fault ∧ position = fault.position out := by
  rw [Parsed.read] at h
  obtain hplain | ⟨out, hplain, hdecode⟩ := bind_eq_error_iff.1 h
  · exact absurd hplain plainText_yaml_ne_error
  obtain ⟨text, htext, hnormalize⟩ := plainText_yaml_eq_ok hplain
  obtain hdecode | ⟨tree, -, htemplate⟩ := bind_eq_error_iff.1 hdecode
  · rw [Format.decode] at hdecode
    cases hread : Yaml.readValue out with
    | error fault =>
      obtain rfl : fault.position out = position := by simpa [hread] using hdecode
      exact ⟨text, out, fault, htext, hnormalize, hread, rfl⟩
    | ok value => cases htree : value.toTree <;> simp [hread, htree] at hdecode
  · obtain htemplate | ⟨template, -, hparsed⟩ := bind_eq_error_iff.1 htemplate
    · exact ((FailsOnTree.ofTree _).isOfTree _ htemplate).elim
    · contradiction

namespace Shorthand

/-- The text above a character and in front of it on its line, and what follows. -/
theorem exists_joinLines (above below : List (List Char)) (left right : List Char) :
    ∃ after, joinLines (above ++ (left ++ right) :: below) = Text.ended above ++ left ++ after := by
  induction above with
  | nil =>
    cases below with
    | nil => exact ⟨right, by simp [joinLines, Text.ended]⟩
    | cons line below => exact ⟨_, (joinLines_cons (List.cons_ne_nil line below) _).trans (List.append_assoc ..)⟩
  | cons line above ih =>
    obtain ⟨after, hafter⟩ := ih
    refine ⟨after, ?_⟩
    rw [List.cons_append, joinLines_cons (by simp), hafter, Text.ended, Text.ended, List.flatMap_cons]
    simp

structure Spot (lines : List TracedLine) where
  above : List TracedLine
  here : TracedLine
  below : List TracedLine
  left : List Char
  right : List Char
  lines_eq : lines = above ++ here :: below
  text_eq : here.text = left ++ right

namespace Spot

variable {lines : List TracedLine} (spot : Spot lines)

def before : List Char := Text.ended (spot.above.map TracedLine.text) ++ spot.left

def position : Text.Position := ⟨spot.above.length + 1, Text.byteLength spot.left + 1⟩

theorem map_text_lines : lines.map TracedLine.text =
    spot.above.map TracedLine.text ++ (spot.left ++ spot.right) :: spot.below.map TracedLine.text := by
  rw [← spot.text_eq, ← List.map_cons, ← List.map_append]
  exact congrArg _ spot.lines_eq

/-- The characters before a place are the first of the text. -/
theorem exists_joinLines : ∃ after, joinLines (lines.map TracedLine.text) = spot.before ++ after := by
  rw [spot.map_text_lines]
  exact Shorthand.exists_joinLines ..

/-- An offset of octets is shown as the line and column of the place behind so many octets. -/
theorem position_byteLength (hlines : ∀ text ∈ lines.map TracedLine.text, '\n' ∉ text) :
    Text.position (String.ofList (joinLines (lines.map TracedLine.text))) (Text.byteLength spot.before) =
      spot.position := by
  obtain ⟨after, hafter⟩ := spot.exists_joinLines
  rw [spot.map_text_lines] at hlines
  have habove : ∀ text ∈ spot.above.map TracedLine.text, '\n' ∉ text :=
    fun text htext => hlines text (List.mem_append_left _ htext)
  have hleft : '\n' ∉ spot.left := fun hmem =>
    hlines (spot.left ++ spot.right) (by simp) (List.mem_append_left _ hmem)
  rw [Text.position, Text.octets_eq_encode, String.toList_ofList, hafter, before, Text.positionIn_encode habove hleft,
    List.length_map, position]

/-- An offset of characters is shown as that place only if each of them is one octet. -/
theorem position_length_eq_iff (hlines : ∀ text ∈ lines.map TracedLine.text, '\n' ∉ text) :
    Text.position (String.ofList (joinLines (lines.map TracedLine.text))) spot.before.length = spot.position ↔
      ∀ c ∈ spot.before, c.utf8Size = 1 := by
  rw [← spot.position_byteLength hlines, ← Text.length_eq_byteLength_iff]
  obtain ⟨after, hafter⟩ := spot.exists_joinLines
  have hoctets : Text.byteLength spot.before ≤
      (Text.octets (String.ofList (joinLines (lines.map TracedLine.text)))).length := by
    rw [Text.octets_eq_encode, String.toList_ofList, hafter, Text.encode_append, List.length_append, Text.length_encode]
    exact Nat.le_add_right ..
  constructor
  · exact Text.eq_of_positionIn_eq ((Text.length_le_byteLength _).trans hoctets) hoctets
  · intro heq
    rw [heq]

end Spot

end Shorthand

/-- A fault in YAML is shown where it stands in the text without shorthand: its column is that in the source, and its
line lies below the one of the source by the lines that are added above it, less those that are joined away. -/
theorem Parsed.read_yaml_fault {source : List UInt8} {position : Text.Position}
    (h : Parsed.read .standard .yaml source = .error (.yaml position)) :
    ∃ text lines fault, textOf source = .ok text ∧ traceText .standard text.toList = .ok lines ∧
      Yaml.readValue (String.ofList (joinLines (lines.map TracedLine.text))) = .error fault ∧
      (fault.place = none → position = ⟨1, 1⟩) ∧
      ∀ spot : Shorthand.Spot lines,
        (fault.place = some (Text.byteLength spot.before) →
          position = spot.position ∧ (spot.here.IsCopy text.toList →
            position.line + joinedAway spot.above = spot.here.number + added spot.above)) ∧
        (fault.place = some spot.before.length →
          (position = spot.position ↔ ∀ c ∈ spot.before, c.utf8Size = 1)) := by
  obtain ⟨text, out, fault, htext, hnormalize, hfault, rfl⟩ := Parsed.exists_of_read_error h
  obtain ⟨lines, hlines, rfl⟩ := Shorthand.normalize_eq_ok_iff.1 hnormalize
  have hsingle := Shorthand.not_mem_lineFeed_traceText hlines
  refine ⟨text, lines, fault, htext, hlines, hfault, fun hplace => ?_, fun spot => ⟨fun hplace => ?_, fun hplace => ?_⟩⟩
  · rw [Yaml.Fault.position, hplace]
  · rw [Yaml.Fault.position, hplace]
    refine ⟨spot.position_byteLength hsingle, fun hcopy => ?_⟩
    dsimp only
    rw [spot.position_byteLength hsingle]
    exact Shorthand.length_add_joinedAway_above (spot.lines_eq ▸ hlines) (by simp [hcopy.taken])
  · rw [Yaml.Fault.position, hplace]
    exact spot.position_length_eq_iff hsingle

def keyedReference : String := "K: !Ref\n a\n\x7d"

def keyedLines : List TracedLine :=
  [⟨1, 1, "K:".toList⟩, ⟨1, 0, "  Ref:".toList⟩, ⟨2, 1, "    a".toList⟩, ⟨3, 1, ['\x7d']⟩]

def keyedSpot : Shorthand.Spot keyedLines where
  above := [⟨1, 1, "K:".toList⟩, ⟨1, 0, "  Ref:".toList⟩, ⟨2, 1, "    a".toList⟩]
  here := ⟨3, 1, ['\x7d']⟩
  below := []
  left := []
  right := ['\x7d']
  lines_eq := rfl
  text_eq := rfl

theorem traceText_keyedReference : traceText .standard keyedReference.toList = .ok keyedLines := by
  have hlines : Shorthand.numberLines 1 (Shorthand.splitLines (Shorthand.doubleQuotes keyedReference.toList)) =
      [⟨1, "K: !Ref".toList⟩, ⟨2, " a".toList⟩, ⟨3, ['\x7d']⟩] := by decide +kernel
  have hkey : Shorthand.traceStep .standard ⟨1, "K: !Ref".toList⟩ [⟨2, " a".toList⟩, ⟨3, ['\x7d']⟩] =
      .ok ⟨[⟨1, 1, "K:".toList⟩, ⟨1, 0, "  Ref:".toList⟩], [⟨2, "    a".toList⟩, ⟨3, ['\x7d']⟩]⟩ := by
    decide +kernel
  have hmoved : Shorthand.traceStep .standard ⟨2, "    a".toList⟩ [⟨3, ['\x7d']⟩] =
      .ok ⟨[⟨2, 1, "    a".toList⟩], [⟨3, ['\x7d']⟩]⟩ := by decide +kernel
  have hlast : Shorthand.traceStep .standard ⟨3, ['\x7d']⟩ [] = .ok ⟨[⟨3, 1, ['\x7d']⟩], []⟩ := by decide +kernel
  simp only [traceText, hlines, Shorthand.traceLines_cons, Shorthand.traceLines_nil, hkey, hmoved, hlast]
  rfl

theorem textOf_keyedReference : Parsed.textOf (Text.octets keyedReference) = .ok keyedReference := by
  have hchars : Text.readUtf8 (Text.octets keyedReference) = .ok keyedReference.toList := by decide +kernel
  rw [Parsed.textOf, hchars]
  exact congrArg Except.ok String.ofList_toList

def keyedScript : Yaml.Script where
  events :=
    [⟨.mappingStart none, none, 0⟩, ⟨.scalar "K" true none, none, 0⟩, ⟨.mappingStart none, none, 5⟩,
      ⟨.scalar "Ref" true none, none, 5⟩, ⟨.scalar "a" true none, none, 14⟩, ⟨.mappingEnd, none, 16⟩]
  targets := []
  fault := some ⟨.expectedKey, some 16⟩
  followed := false

theorem ofText_keyedReference : Yaml.Script.ofText "K:\n  Ref:\n    a\n\x7d" = keyedScript := by
  have hevents : (Yaml.Script.ofText "K:\n  Ref:\n    a\n\x7d").events = keyedScript.events := by decide +kernel
  have htargets : (Yaml.Script.ofText "K:\n  Ref:\n    a\n\x7d").targets = keyedScript.targets := by decide +kernel
  have hfault : (Yaml.Script.ofText "K:\n  Ref:\n    a\n\x7d").fault = keyedScript.fault := by decide +kernel
  have hfollowed : (Yaml.Script.ofText "K:\n  Ref:\n    a\n\x7d").followed = keyedScript.followed := by decide +kernel
  cases hscript : Yaml.Script.ofText "K:\n  Ref:\n    a\n\x7d"
  rw [hscript] at hevents htargets hfault hfollowed
  cases hevents
  cases htargets
  cases hfault
  cases hfollowed
  rfl

theorem readValue_keyedReference : Yaml.readValue (String.ofList (joinLines (keyedLines.map TracedLine.text))) =
    .error ⟨.expectedKey, some 16⟩ := by
  have htext : String.ofList (joinLines (keyedLines.map TracedLine.text)) = "K:\n  Ref:\n    a\n\x7d" := rfl
  have hkey : Yaml.Meaning.ofScalar "K" true none = .ok (.string "K") := rfl
  have hname : Yaml.Meaning.ofScalar "Ref" true none = .ok (.string "Ref") := rfl
  have hargument : Yaml.Meaning.ofScalar "a" true none = .ok (.string "a") := rfl
  rw [htext, Yaml.readValue, ofText_keyedReference]
  simp [keyedScript, Yaml.Script.readOnly, Yaml.Script.isBlank, Yaml.Script.ending, Yaml.Script.readValue,
    Yaml.Script.readEntries, Yaml.Script.enter, Yaml.Script.closes, Yaml.Script.depthLimit, Yaml.Entered.leave, hkey,
    hname, hargument, bind, Except.bind, pure, Except.pure]

theorem read_keyedReference :
    Parsed.read .standard .yaml (Text.octets keyedReference) = .error (.yaml ⟨4, 1⟩) := by
  have hnormalize := Shorthand.normalize_eq_ok_iff.2 ⟨keyedLines, traceText_keyedReference, rfl⟩
  have hplain : Parsed.plainText .standard .yaml (Text.octets keyedReference) =
      .ok (String.ofList (joinLines (keyedLines.map TracedLine.text))) :=
    bind_eq_ok_iff.2 ⟨_, textOf_keyedReference, by rw [hnormalize]; rfl⟩
  refine bind_eq_error_iff.2 (.inr ⟨_, hplain, bind_eq_error_iff.2 (.inl ?_)⟩)
  have hposition : Text.position (String.ofList (joinLines (keyedLines.map TracedLine.text))) 16 = ⟨4, 1⟩ := by
    decide +kernel
  rw [Format.decode, readValue_keyedReference]
  exact congrArg (fun position => Except.error (TemplateFault.yaml position)) hposition

/-- The bracket stands in the third line of the source, which is copied, and is shown in the fourth: one line is added
above it, and none is joined to another. -/
theorem read_yaml_fault_keyed :
    Parsed.read .standard .yaml (Text.octets keyedReference) = .error (.yaml ⟨4, 1⟩) ∧
      keyedSpot.position = ⟨4, 1⟩ ∧ 4 + joinedAway keyedSpot.above = 3 + added keyedSpot.above := by
  refine ⟨read_keyedReference, ?_⟩
  obtain ⟨text, lines, fault, htext, hlines, hfault, -, hspot⟩ := Parsed.read_yaml_fault read_keyedReference
  cases htext.symm.trans textOf_keyedReference
  cases hlines.symm.trans traceText_keyedReference
  cases hfault.symm.trans readValue_keyedReference
  obtain ⟨hposition, hline⟩ := (hspot keyedSpot).1 rfl
  exact ⟨hposition.symm, hline ⟨rfl, by decide +kernel⟩⟩

/-- The character that stops the reading stands at the start of the third line, in the source as in its copy, and the
fault is shown in the fourth. -/
theorem read_yaml_keyed :
    Parsed.read .standard .yaml (Text.octets keyedReference) = .error (.yaml ⟨4, 1⟩) ∧
      traceText .standard keyedReference.toList = .ok keyedLines ∧
      Yaml.readValue (String.ofList (joinLines (keyedLines.map TracedLine.text))) =
        .error ⟨.expectedKey, some keyedSpot.before.length⟩ ∧
      keyedSpot.right = ['\x7d'] ∧ keyedSpot.here.IsCopy keyedReference.toList ∧ keyedSpot.here.number = 3 :=
  ⟨read_keyedReference, traceText_keyedReference, readValue_keyedReference, rfl, ⟨rfl, by decide +kernel⟩, rfl⟩

end CloudTemplate
