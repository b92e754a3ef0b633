import CloudTemplate.Proofs.Json.Compact
import CloudTemplate.Proofs.Shorthand.LongForms
import CloudTemplate.Proofs.Shorthand.Words
/-! Shorthand for the attribute of a resource, with a point between the names of both. The text that it is written out as
is a call with a list for its argument, and is read as that. -/
namespace CloudTemplate

def attributeCall (argument : Tree) : Tree := .object [("Fn::GetAtt", argument)]

namespace Json

variable {rest tail : List Char} {o place fuel : Nat} {node : Node} {next : Cursor}

theorem skipBlanks_space : (Cursor.mk (' ' :: rest) o).skipBlanks = (Cursor.mk rest (o + 1)).skipBlanks := by
  have hwidth : ' '.utf8Size = 1 := rfl
  rw [Cursor.skipBlanks, Cursor.skipBlanks, List.takeWhile_cons_of_pos rfl, List.length_cons, Cursor.skip, Cursor.skip,
    List.drop_succ_cons, List.take_succ_cons, Text.byteLength, hwidth, Nat.add_assoc]

theorem readValue_space : readValue ⟨' ' :: rest, o⟩ (fuel + 1) = readValue ⟨rest, o + 1⟩ (fuel + 1) := by
  rw [readValue, readValue, skipBlanks_space]

theorem readEntries_space (first : Bool) :
    readEntries ⟨' ' :: rest, o⟩ first (fuel + 1) = readEntries ⟨rest, o + 1⟩ first (fuel + 1) := by
  rw [readEntries, readEntries, skipBlanks_space]

theorem readItems_comma_space :
    readItems ⟨',' :: ' ' :: rest, o⟩ false (fuel + 1) = readItems ⟨',' :: rest, o + 1⟩ false (fuel + 1) := by
  have hcomma (cs : List Char) (o : Nat) : (Cursor.mk (',' :: cs) o).advance = ⟨cs, o + 1⟩ := rfl
  rw [readItems, readItems, skipBlanks_cons rfl, skipBlanks_cons rfl]
  simp only [hcomma, skipBlanks_space]
  rfl

/-- An entry with a space before its colon. -/
theorem readEntries_apart {key : String} {nodes : List (Label × Node)} {stop : Except Break (Option Nat)}
    {after : Option Cursor} (hkey : readText ⟨rest, o + 1⟩ = .ok (.ok key, ⟨' ' :: ':' :: tail, place⟩))
    (hvalue : readValue ⟨tail, place + 2⟩ fuel = (node, some next))
    (hentries : readEntries next false fuel = (nodes, stop, after)) :
    readEntries ⟨'"' :: rest, o⟩ true (fuel + 1) = ((⟨.ok key, some (place + 1)⟩, node) :: nodes, stop, after) := by
  have hadvance : (Cursor.mk ('"' :: rest) o).advance = ⟨rest, o + 1⟩ := rfl
  have hcolon : (Cursor.mk (':' :: tail) (place + 1)).advance = ⟨tail, place + 2⟩ := rfl
  rw [readEntries, skipBlanks_cons rfl]
  simp [hadvance, hcolon, hkey, skipBlanks_space, skipBlanks_cons (show Cursor.isJsonBlank ':' = false from rfl), hvalue,
    hentries]

/-- A list of two texts with a space behind its comma. -/
theorem readValue_pair (s t : String) (rest : List Char) (o fuel : Nat) : ∃ node stop,
    readValue ⟨'[' :: '"' :: (s.toList.flatMap Tree.escape ++ '"' :: ',' :: ' ' :: '"' ::
      (t.toList.flatMap Tree.escape ++ '"' :: ']' :: rest)), o⟩ (fuel + 4) = (node, some ⟨rest, stop⟩) ∧
      ∀ depth, node.tree (depth + 2) = .ok (.array [.string s, .string t]) := by
  obtain ⟨first, hfirst⟩ :=
    readText_quoted (',' :: ' ' :: '"' :: (t.toList.flatMap Tree.escape ++ '"' :: ']' :: rest)) (o + 2) s
  obtain ⟨second, hsecond⟩ := readText_quoted (']' :: rest) (first + 3) t
  have hclose := @readItems_close rest second fuel false
  have hnext := readItems_next rfl (by decide) (readValue_string hsecond) hclose
  have hitems := readItems_first rfl (by decide) (readValue_string hfirst) (readItems_comma_space.trans hnext)
  refine ⟨_, second + 1, readValue_array hitems, fun depth => ?_⟩
  rfl

def attributeTail (s t : String) : List Char :=
  ['F', 'n', ':', ':', 'G', 'e', 't', 'A', 't', 't'] ++ '"' :: ' ' :: ':' :: ' ' :: '[' :: '"' ::
    (s.toList.flatMap Tree.escape ++ '"' :: ',' :: ' ' :: '"' :: (t.toList.flatMap Tree.escape ++ '"' :: ']' :: ' ' :: ['\x7d']))

theorem read_attribute (s t : String) : ∃ root,
    Document.read ('\x7b' :: ' ' :: '"' :: attributeTail s t) = ⟨root, .ok ()⟩ ∧
      root.tree depthLimit = .ok (attributeCall (.array [.string s, .string t])) := by
  obtain ⟨fuel, hfuel⟩ : ∃ fuel, 2 * ('\x7b' :: ' ' :: '"' :: attributeTail s t).length + 2 = fuel + 6 :=
    Nat.exists_eq_add_of_le' (by simp only [List.length_cons]; omega)
  obtain ⟨colon, hkey⟩ :
      ∃ colon, readText ⟨attributeTail s t, 3⟩ = .ok (.ok "Fn::GetAtt", ⟨' ' :: ':' :: ' ' :: _, colon⟩) :=
    readText_quoted _ 3 "Fn::GetAtt"
  obtain ⟨node, stop, hpair, hnode⟩ := readValue_pair s t [' ', '\x7d'] (colon + 3) fuel
  have hclose := (readEntries_space false).trans (@readEntries_close [] (stop + 1) (fuel + 3) false)
  have hentries := readEntries_apart hkey (readValue_space.trans hpair) hclose
  obtain ⟨root, hread, htree⟩ : ∃ root,
      readValue ⟨'\x7b' :: ' ' :: '"' :: attributeTail s t, 0⟩ (fuel + 6) = (root, some ⟨[], stop + 2⟩) ∧
        root.tree depthLimit = .ok (attributeCall (.array [.string s, .string t])) := by
    refine ⟨_, readValue_object ((readEntries_space true).trans hentries), ?_⟩
    simp only [Node.tree, treeEntries, depthLimit, hnode]
    rfl
  refine ⟨root, ?_, htree⟩
  rw [Document.read, readNext]
  simp only [Cursor.ofText, hfuel, hread]
  rfl

end Json

namespace Shorthand

def isDotted (c : Char) : Bool := c.isAlphanum || c == '.'

theorem ne_of_isDotted {c d : Char} (h : isDotted c = true) (hd : isDotted d = false) : c ≠ d := by
  rintro rfl
  rw [h] at hd
  contradiction

theorem isBlank_of_isDotted {c : Char} (h : isDotted c = true) : Text.isBlank c = false := by
  obtain h | h := Bool.or_eq_true_iff.1 h
  · exact isBlank_of_isAlphanum h
  · rw [beq_iff_eq.1 h]
    rfl

theorem quote_of_isDotted {cs : List Char} (h : ∀ c ∈ cs, isDotted c = true) : quote cs = inQuotes cs := by
  have hkept : ∀ c ∈ cs, (if c = '"' ∨ c = '\\' then ['\\', c] else [c]) = [c] := by
    intro c hc
    rw [if_neg (not_or.2 ⟨ne_of_isDotted (h c hc) rfl, ne_of_isDotted (h c hc) rfl⟩)]
  rw [quote, List.flatMap_congr hkept]
  simp

theorem escape_of_isDotted {c : Char} (h : isDotted c = true) : Tree.escape c = [c] := by
  have hcontrol : ¬c.toNat < 32 := by
    intro hlt
    have hsmall : ∀ n < 32, isDotted (Char.ofNat n) = false := by decide
    have hc := hsmall c.toNat hlt
    rw [Char.ofNat_toNat, h] at hc
    contradiction
  simp only [Tree.escape, hcontrol, if_false, ne_of_isDotted (d := '"') h rfl, ne_of_isDotted (d := '\\') h rfl,
    ne_of_isDotted (d := '\x08') h rfl, ne_of_isDotted (d := '\x0c') h rfl, ne_of_isDotted (d := '\n') h rfl,
    ne_of_isDotted (d := '\r') h rfl, ne_of_isDotted (d := '\t') h rfl]

theorem flatMap_escape_of_isDotted {cs : List Char} (h : ∀ c ∈ cs, isDotted c = true) : cs.flatMap Tree.escape = cs := by
  rw [List.flatMap_congr fun c hc => escape_of_isDotted (h c hc)]
  simp

theorem splitPoint_append {resource : List Char} (h : '.' ∉ resource) (name : List Char) :
    splitPoint (resource ++ '.' :: name) = some (resource, name) := by
  have hall : ∀ c ∈ resource, (c != '.') = true := fun c hc => bne_iff_ne.2 (ne_of_mem_of_not_mem hc h)
  have hpoint : (resource ++ '.' :: name).contains '.' = true := by simp
  rw [splitPoint, if_pos hpoint, List.takeWhile_append_of_pos hall, List.dropWhile_append_of_pos hall]
  simp

structure Dotted where
  resource : List Char
  name : List Char
  isAlphanum : ∀ c ∈ resource, c.isAlphanum = true
  isDotted : ∀ c ∈ name, isDotted c = true

namespace Dotted

variable (dotted : Dotted)

def text : List Char := dotted.resource ++ '.' :: dotted.name

theorem isDotted_of_mem_resource {c : Char} (hc : c ∈ dotted.resource) : Shorthand.isDotted c = true := by
  rw [Shorthand.isDotted, dotted.isAlphanum c hc, Bool.true_or]

theorem isDotted_of_mem_text : ∀ c ∈ dotted.text, Shorthand.isDotted c = true := by
  intro c hc
  rw [text, List.mem_append, List.mem_cons] at hc
  obtain hc | rfl | hc := hc
  · exact dotted.isDotted_of_mem_resource hc
  · rfl
  · exact dotted.isDotted c hc

theorem text_eq_cons : ∃ c cs, dotted.text = c :: cs ∧ Shorthand.isDotted c = true := by
  obtain ⟨c, cs, hcs⟩ := List.exists_cons_of_ne_nil (show dotted.text ≠ [] by simp [text])
  exact ⟨c, cs, hcs, dotted.isDotted_of_mem_text c (by simp [hcs])⟩

theorem not_mem_resource : '.' ∉ dotted.resource := fun hmem => by simpa using dotted.isAlphanum _ hmem

def scalar : Scalar where
  text := dotted.text
  starts := by
    obtain ⟨c, cs, hcs, hc⟩ := dotted.text_eq_cons
    have hmark : c ≠ '!' ∧ c ≠ '[' ∧ c ≠ '\x7b' ∧ c ≠ '"' :=
      ⟨ne_of_isDotted hc rfl, ne_of_isDotted hc rfl, ne_of_isDotted hc rfl, ne_of_isDotted hc rfl⟩
    simp [hcs, startsScalar, isBlank_of_isDotted hc, hmark]
  ends := Text.trimEnd_eq_self fun c hc => isBlank_of_isDotted (dotted.isDotted_of_mem_text c hc)
  unbroken c hc := by
    have hc := dotted.isDotted_of_mem_text c hc
    have hends : c ≠ ',' ∧ c ≠ ']' ∧ c ≠ '\x7d' :=
      ⟨ne_of_isDotted hc rfl, ne_of_isDotted hc rfl, ne_of_isDotted hc rfl⟩
    simp [endsPlain, hends]
  announcesNothing := by
    obtain ⟨c, cs, hcs, hc⟩ := dotted.text_eq_cons
    have hmark : c ≠ '|' ∧ c ≠ '>' := ⟨ne_of_isDotted hc rfl, ne_of_isDotted hc rfl⟩
    simp [hcs, isBlockIndicator, hmark]

def listText : List Char := '[' :: inQuotes dotted.resource ++ ", ".toList ++ inQuotes dotted.name ++ [']']

theorem attributeArgument_text : attributeArgument dotted.text = dotted.listText := by
  have hresource : quote dotted.resource = inQuotes dotted.resource :=
    quote_of_isDotted fun c hc => dotted.isDotted_of_mem_resource hc
  have hname : quote dotted.name = inQuotes dotted.name := quote_of_isDotted dotted.isDotted
  rw [← attributeList_eq, attributeList, text, splitPoint_append dotted.not_mem_resource]
  dsimp only
  rw [hresource, hname, listText]

def callText : List Char := "\x7b \"Fn::GetAtt\" : ".toList ++ dotted.listText ++ " \x7d".toList

-- The equation that Lean makes for this definition takes long, since its texts are evaluated.
theorem callText_eq : dotted.callText = "\x7b \"Fn::GetAtt\" : ".toList ++ dotted.listText ++ " \x7d".toList := rfl

def node : Node := .call .getAtt oneSpace oneSpace_ne_nil (.plain dotted.scalar)

theorem source_node : dotted.node.source = shortForm .getAtt dotted.text := by
  simp [node, Node.source, shortForm, oneSpace, scalar]

theorem expanded_node : dotted.node.expanded = dotted.callText := by
  have hname : "\x7b \"".toList ++ Intrinsic.getAtt.longName.toList ++ "\" : ".toList = "\x7b \"Fn::GetAtt\" : ".toList := by
    decide
  have hargument : Node.writtenArgument .getAtt (.plain dotted.scalar) (Node.plain dotted.scalar).expanded = dotted.listText :=
    dotted.attributeArgument_text
  calc dotted.node.expanded
      = "\x7b \"".toList ++ Intrinsic.getAtt.longName.toList ++ "\" : ".toList ++ dotted.listText ++ " \x7d".toList := by
        rw [node, Node.expanded, hargument]
    _ = dotted.callText := congrArg (· ++ dotted.listText ++ " \x7d".toList) hname

theorem expandValue_shortForm : expandValue (shortForm .getAtt dotted.text) = .ok (.inline dotted.callText) := by
  rw [← source_node, ← expanded_node]
  exact expandValue_source dotted.node rfl rfl

def call : Tree := attributeCall (.array [.string (String.ofList dotted.resource), .string (String.ofList dotted.name)])

theorem readTree_callText : Json.readTree (String.ofList dotted.callText) = .ok dotted.call := by
  have htext : dotted.callText =
      '\x7b' :: ' ' :: '"' :: Json.attributeTail (String.ofList dotted.resource) (String.ofList dotted.name) := by
    have hresource : dotted.resource.flatMap Tree.escape = dotted.resource :=
      flatMap_escape_of_isDotted fun c hc => dotted.isDotted_of_mem_resource hc
    have hname : dotted.name.flatMap Tree.escape = dotted.name := flatMap_escape_of_isDotted dotted.isDotted
    simp only [Json.attributeTail, String.toList_ofList, hresource, hname]
    simp [callText_eq, listText, inQuotes]
  obtain ⟨root, hread, htree⟩ :=
    Json.read_attribute (String.ofList dotted.resource) (String.ofList dotted.name)
  rw [Json.readTree, Json.readWith, String.toList_ofList, htext, hread]
  simp only [htree]
  rfl

end Dotted

end Shorthand

end CloudTemplate
