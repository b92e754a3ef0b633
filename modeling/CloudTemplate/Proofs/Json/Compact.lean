import CloudTemplate.Json.Node
import CloudTemplate.Proofs.Tree.Parts
import Mathlib.Tactic.SplitIfs
/-! Trees that are read back from their compact text. The text is read from its front, value by value, and what a
reader leaves is what stood behind the value; so each part is read back whatever follows it. -/
namespace CloudTemplate.Json

open CloudTemplate.Tree (escape hexDigit)

section

variable (strict : Bool) (rest : List Char) (o : Nat)

theorem digits?_hexDigit : ∀ n < 32, Text.digits? 16 ['0', '0', hexDigit (n / 16), hexDigit (n % 16)] = some n := by
  decide

theorem readHex_control {n : Nat} (h : n < 32) :
    ∃ stop, readHex ⟨'0' :: '0' :: hexDigit (n / 16) :: hexDigit (n % 16) :: rest, o⟩ = .ok (n, ⟨rest, stop⟩) := by
  have hlength : ¬ Text.byteLength ('0' :: '0' :: hexDigit (n / 16) :: hexDigit (n % 16) :: rest) < 4 := by
    have hfirst := Char.utf8Size_pos (hexDigit (n / 16))
    have hsecond := Char.utf8Size_pos (hexDigit (n % 16))
    have hzero : '0'.utf8Size = 1 := rfl
    simp only [Text.byteLength, hzero]
    omega
  rw [readHex, if_neg hlength]
  simp only [List.take_succ_cons, List.take_zero, digits?_hexDigit n h]
  exact ⟨_, rfl⟩

theorem readEscape_control {c : Char} (h : c.toNat < 32) :
    ∃ stop, readEscape strict ⟨'u' :: '0' :: '0' :: hexDigit (c.toNat / 16) :: hexDigit (c.toNat % 16) :: rest, o⟩ =
      .ok (c, ⟨rest, stop⟩) := by
  obtain ⟨stop, hhex⟩ := readHex_control rest (o + 1) h
  have hadvance (cs : List Char) : (Cursor.mk ('u' :: cs) o).advance = ⟨cs, o + 1⟩ := rfl
  refine ⟨stop, ?_⟩
  have hlow : c.toNat < 0xD800 := by omega
  simp only [readEscape, hadvance, hhex]
  rw [if_pos (by simp [hlow]), Char.ofNat_toNat]

/-- Each character is read back from what stands for it. -/
theorem readCharacters_escape (c : Char) (seen : List Char) (fuel : Nat) :
    ∃ stop, readCharacters strict seen ⟨escape c ++ rest, o⟩ (fuel + 1) =
      readCharacters strict (c :: seen) ⟨rest, stop⟩ fuel := by
  unfold escape
  split_ifs with h h h h h h h hcontrol
  -- Seven characters have an escape of one letter, which is read back by evaluation.
  iterate 7
    · subst h
      exact ⟨_, rfl⟩
  · obtain ⟨stop, hescape⟩ := readEscape_control strict rest (o + 1) hcontrol
    refine ⟨stop, ?_⟩
    have hadvance (cs : List Char) : (Cursor.mk ('\\' :: cs) o).advance = ⟨cs, o + 1⟩ := rfl
    simp only [List.cons_append, List.nil_append, readCharacters, hadvance, hescape]
  · refine ⟨o + c.utf8Size, ?_⟩
    simp only [List.cons_append, List.nil_append, readCharacters]
    rw [if_neg hcontrol]
    rfl

theorem readCharacters_flatMap (cs seen : List Char) {fuel : Nat} (h : cs.length < fuel) :
    ∃ stop, readCharacters strict seen ⟨cs.flatMap escape ++ '"' :: rest, o⟩ fuel =
      .ok (String.ofList (seen.reverse ++ cs), ⟨rest, stop⟩) := by
  induction cs generalizing seen fuel o with
  | nil =>
    obtain ⟨fuel, rfl⟩ := Nat.exists_eq_succ_of_ne_zero (Nat.ne_of_gt h)
    refine ⟨o + 1, ?_⟩
    rw [List.append_nil]
    rfl
  | cons c cs ih =>
    rw [List.length_cons] at h
    obtain ⟨fuel, rfl⟩ := Nat.exists_eq_succ_of_ne_zero (Nat.ne_of_gt (Nat.zero_lt_of_lt h))
    obtain ⟨next, hnext⟩ := readCharacters_escape strict (cs.flatMap escape ++ '"' :: rest) o c seen fuel
    obtain ⟨stop, hstop⟩ := ih next (c :: seen) (Nat.lt_of_succ_lt_succ h)
    refine ⟨stop, ?_⟩
    rw [List.flatMap_cons, List.append_assoc, hnext, hstop, List.reverse_cons, List.append_assoc, List.singleton_append]

theorem escape_ne_nil (c : Char) : escape c ≠ [] := by
  unfold escape
  split_ifs <;> exact List.cons_ne_nil _ _

theorem length_le_flatMap (cs : List Char) : cs.length ≤ (cs.flatMap escape).length := by
  induction cs with
  | nil => exact Nat.le_refl 0
  | cons c cs ih =>
    have hpos := List.length_pos_iff.2 (escape_ne_nil c)
    rw [List.flatMap_cons, List.length_append, List.length_cons]
    omega

/-- A quoted text is read back, in either way of reading. -/
theorem readText_quoted (s : String) :
    ∃ stop, readText ⟨s.toList.flatMap escape ++ '"' :: rest, o⟩ = .ok (.ok s, ⟨rest, stop⟩) := by
  have hfuel : s.toList.length < (s.toList.flatMap escape ++ '"' :: rest).length + 1 := by
    have hle := length_le_flatMap s.toList
    rw [List.length_append]
    omega
  have hread (strict : Bool) : ∃ stop, readString strict ⟨s.toList.flatMap escape ++ '"' :: rest, o⟩ =
      .ok (s, ⟨rest, stop⟩) := by
    obtain ⟨stop, hstop⟩ := readCharacters_flatMap strict rest o s.toList [] hfuel
    refine ⟨stop, ?_⟩
    rw [readString, hstop, List.reverse_nil, List.nil_append, String.ofList_toList]
  obtain ⟨stop, hlenient⟩ := hread false
  obtain ⟨_, hstrict⟩ := hread true
  refine ⟨stop, ?_⟩
  rw [readText, hlenient, hstrict]
  rfl

end

def itemsTail : List Tree → List Char
  | [] => [']']
  | t :: ts => ',' :: (t.compact.toList ++ itemsTail ts)

def keyText (key : String) : List Char := key.toList.flatMap escape ++ ['"', ':']

def entriesTail : List (String × Tree) → List Char
  | [] => ['\x7d']
  | (key, t) :: es => ',' :: '"' :: (keyText key ++ t.compact.toList ++ entriesTail es)

theorem toList_quoted (s : String) : (Tree.quoted s).toList = '"' :: (s.toList.flatMap escape ++ ['"']) := by
  simp [Tree.quoted]

theorem toList_compactItems (t : Tree) (ts : List Tree) :
    (Tree.compactItems (t :: ts)).toList ++ [']'] = t.compact.toList ++ itemsTail ts := by
  induction ts generalizing t with
  | nil => rw [Tree.compactItems, itemsTail]
  | cons u ts ih =>
    have hcomma : ",".toList = [','] := rfl
    rw [Tree.compactItems, String.toList_append, String.toList_append, List.append_assoc, List.append_assoc, ih, itemsTail,
      hcomma, List.singleton_append]
    exact List.cons_ne_nil _ _

theorem toList_compactEntries (key : String) (t : Tree) (es : List (String × Tree)) :
    (Tree.compactEntries ((key, t) :: es)).toList ++ ['\x7d'] =
      '"' :: (keyText key ++ t.compact.toList ++ entriesTail es) := by
  induction es generalizing key t with
  | nil => simp [Tree.compactEntries, entriesTail, toList_quoted, keyText]
  | cons e es ih =>
    have hrest := ih e.1 e.2
    rw [Tree.compactEntries]
    · simp only [String.toList_append, List.append_assoc, hrest]
      simp [entriesTail, toList_quoted, keyText]
    · exact List.cons_ne_nil _ _

theorem toList_compact_array (t : Tree) (ts : List Tree) :
    (Tree.array (t :: ts)).compact.toList = '[' :: (t.compact.toList ++ itemsTail ts) := by
  rw [← toList_compactItems]
  simp [Tree.compact]

theorem toList_compact_object (key : String) (t : Tree) (es : List (String × Tree)) :
    (Tree.object ((key, t) :: es)).compact.toList =
      '\x7b' :: '"' :: (keyText key ++ t.compact.toList ++ entriesTail es) := by
  rw [← toList_compactEntries]
  simp [Tree.compact]

mutual

inductive Node.Denotes : Node → Tree → Prop
  | null {start : Option Cursor} {stop : Option Nat} : Node.Denotes (.null start stop) .null
  | bool {b : Bool} {start : Option Cursor} {stop : Option Nat} : Node.Denotes (.bool b start stop) (.bool b)
  | string {s : String} {start : Option Cursor} {stop : Option Nat} :
      Node.Denotes (.string (.ok s) start stop) (.string s)
  | array {start : Option Cursor} {nodes : List Node} {items : List Tree} {stop : Option Nat}
      (h : ItemsDenote nodes items) : Node.Denotes (.array start nodes (.ok stop)) (.array items)
  | object {start : Option Cursor} {nodes : List (Label × Node)} {entries : List (String × Tree)} {stop : Option Nat}
      (h : EntriesDenote nodes entries) : Node.Denotes (.object start nodes (.ok stop)) (.object entries)

inductive ItemsDenote : List Node → List Tree → Prop
  | nil : ItemsDenote [] []
  | cons {node : Node} {nodes : List Node} {t : Tree} {ts : List Tree} (h : node.Denotes t)
      (hrest : ItemsDenote nodes ts) : ItemsDenote (node :: nodes) (t :: ts)

inductive EntriesDenote : List (Label × Node) → List (String × Tree) → Prop
  | nil : EntriesDenote [] []
  | cons {after : Option Nat} {node : Node} {nodes : List (Label × Node)} {key : String} {t : Tree}
      {es : List (String × Tree)} (h : node.Denotes t) (hrest : EntriesDenote nodes es) :
      EntriesDenote ((⟨.ok key, after⟩, node) :: nodes) ((key, t) :: es)

end

def IsReadBack (t : Tree) : Prop :=
  ∀ (rest : List Char) (o fuel : Nat), t.compact.toList.length ≤ fuel → ∃ node stop,
    readValue ⟨t.compact.toList ++ rest, o⟩ fuel = (node, some ⟨rest, stop⟩) ∧ node.Denotes t

def StartsValue (cs : List Char) : Prop :=
  ∃ c tail, cs = c :: tail ∧ Cursor.isJsonBlank c = false ∧ c ≠ ']'

section

variable {c : Char} {rest tail : List Char} {o fuel : Nat} {node : Node} {next : Cursor}

theorem skipBlanks_cons (h : Cursor.isJsonBlank c = false) :
    (Cursor.mk (c :: rest) o).skipBlanks = ⟨c :: rest, o⟩ := by
  rw [Cursor.skipBlanks, List.takeWhile_cons_of_neg (by simp [h])]
  rfl

theorem readItems_close (first : Bool) :
    readItems ⟨']' :: rest, o⟩ first (fuel + 1) = ([], .ok (some (o + 1)), some ⟨rest, o + 1⟩) := by
  rw [readItems, skipBlanks_cons rfl]
  rfl

theorem readItems_first {nodes : List Node} {stop : Except Break (Option Nat)} {after : Option Cursor}
    (hblank : Cursor.isJsonBlank c = false) (hclose : c ≠ ']')
    (hvalue : readValue ⟨c :: rest, o⟩ fuel = (node, some next))
    (hitems : readItems next false fuel = (nodes, stop, after)) :
    readItems ⟨c :: rest, o⟩ true (fuel + 1) = (node :: nodes, stop, after) := by
  rw [readItems, skipBlanks_cons hblank]
  simp only [hvalue, hitems, if_true]

theorem readItems_next {nodes : List Node} {stop : Except Break (Option Nat)} {after : Option Cursor}
    (hblank : Cursor.isJsonBlank c = false) (hclose : c ≠ ']')
    (hvalue : readValue ⟨c :: rest, o + 1⟩ fuel = (node, some next))
    (hitems : readItems next false fuel = (nodes, stop, after)) :
    readItems ⟨',' :: c :: rest, o⟩ false (fuel + 1) = (node :: nodes, stop, after) := by
  have hadvance : (Cursor.mk (',' :: c :: rest) o).advance = ⟨c :: rest, o + 1⟩ := rfl
  rw [readItems, skipBlanks_cons rfl]
  simp [hadvance, skipBlanks_cons hblank, hvalue, hitems, hclose]

theorem readEntries_close (first : Bool) :
    readEntries ⟨'\x7d' :: rest, o⟩ first (fuel + 1) = ([], .ok (some (o + 1)), some ⟨rest, o + 1⟩) := by
  rw [readEntries, skipBlanks_cons rfl]
  rfl

theorem readEntries_first {key : String} {place : Nat} {nodes : List (Label × Node)}
    {stop : Except Break (Option Nat)} {after : Option Cursor}
    (hkey : readText ⟨rest, o + 1⟩ = .ok (.ok key, ⟨':' :: tail, place⟩))
    (hvalue : readValue ⟨tail, place + 1⟩ fuel = (node, some next))
    (hentries : readEntries next false fuel = (nodes, stop, after)) :
    readEntries ⟨'"' :: rest, o⟩ true (fuel + 1) = ((⟨.ok key, some place⟩, node) :: nodes, stop, after) := by
  have hadvance : (Cursor.mk ('"' :: rest) o).advance = ⟨rest, o + 1⟩ := rfl
  have hcolon : (Cursor.mk (':' :: tail) place).advance = ⟨tail, place + 1⟩ := rfl
  rw [readEntries, skipBlanks_cons rfl]
  simp [hadvance, hcolon, hkey, skipBlanks_cons (show Cursor.isJsonBlank ':' = false from rfl), hvalue, hentries]

theorem readEntries_next {key : String} {place : Nat} {nodes : List (Label × Node)}
    {stop : Except Break (Option Nat)} {after : Option Cursor}
    (hkey : readText ⟨rest, o + 2⟩ = .ok (.ok key, ⟨':' :: tail, place⟩))
    (hvalue : readValue ⟨tail, place + 1⟩ fuel = (node, some next))
    (hentries : readEntries next false fuel = (nodes, stop, after)) :
    readEntries ⟨',' :: '"' :: rest, o⟩ false (fuel + 1) = ((⟨.ok key, some place⟩, node) :: nodes, stop, after) := by
  have hcomma : (Cursor.mk (',' :: '"' :: rest) o).advance = ⟨'"' :: rest, o + 1⟩ := rfl
  have hadvance : (Cursor.mk ('"' :: rest) (o + 1)).advance = ⟨rest, o + 2⟩ := rfl
  have hcolon : (Cursor.mk (':' :: tail) place).advance = ⟨tail, place + 1⟩ := rfl
  rw [readEntries, skipBlanks_cons rfl]
  simp [hcomma, hadvance, hcolon, hkey, skipBlanks_cons (show Cursor.isJsonBlank ':' = false from rfl),
    skipBlanks_cons (show Cursor.isJsonBlank '"' = false from rfl), hvalue, hentries]

theorem readValue_array {nodes : List Node} {stop : Except Break (Option Nat)} {after : Option Cursor}
    (h : readItems ⟨rest, o + 1⟩ true fuel = (nodes, stop, after)) :
    readValue ⟨'[' :: rest, o⟩ (fuel + 1) = (.array (some ⟨'[' :: rest, o⟩) nodes stop, after) := by
  have hadvance : (Cursor.mk ('[' :: rest) o).advance = ⟨rest, o + 1⟩ := rfl
  rw [readValue, skipBlanks_cons rfl]
  simp only [hadvance, h]

theorem readValue_object {nodes : List (Label × Node)} {stop : Except Break (Option Nat)} {after : Option Cursor}
    (h : readEntries ⟨rest, o + 1⟩ true fuel = (nodes, stop, after)) :
    readValue ⟨'\x7b' :: rest, o⟩ (fuel + 1) = (.object (some ⟨'\x7b' :: rest, o⟩) nodes stop, after) := by
  have hadvance : (Cursor.mk ('\x7b' :: rest) o).advance = ⟨rest, o + 1⟩ := rfl
  rw [readValue, skipBlanks_cons rfl]
  simp only [hadvance, h]

theorem readValue_string {s : Except Fault String} (h : readText ⟨rest, o + 1⟩ = .ok (s, next)) :
    readValue ⟨'"' :: rest, o⟩ (fuel + 1) = (.string s (some ⟨'"' :: rest, o⟩) (some next.offset), some next) := by
  have hadvance : (Cursor.mk ('"' :: rest) o).advance = ⟨rest, o + 1⟩ := rfl
  rw [readValue, skipBlanks_cons rfl]
  simp only [hadvance, h]

end

def IsNumberless (t : Tree) : Prop := ∀ n, ¬ t.Holds (.number n)

theorem startsValue_compact {t : Tree} (h : IsNumberless t) : StartsValue t.compact.toList := by
  cases t with
  | null => exact ⟨'n', ['u', 'l', 'l'], rfl, rfl, by decide⟩
  | bool b =>
    cases b with
    | true => exact ⟨'t', ['r', 'u', 'e'], rfl, rfl, by decide⟩
    | false => exact ⟨'f', ['a', 'l', 's', 'e'], rfl, rfl, by decide⟩
  | number n => exact absurd .self (h n)
  | string s => exact ⟨'"', _, toList_quoted s, rfl, by decide⟩
  | array items =>
    refine ⟨'[', (Tree.compactItems items).toList ++ [']'], ?_, rfl, by decide⟩
    simp [Tree.compact]
  | object entries =>
    refine ⟨'\x7b', (Tree.compactEntries entries).toList ++ ['\x7d'], ?_, rfl, by decide⟩
    simp [Tree.compact]

/-- The items that are left are read up to the bracket, in as many steps as there are characters. -/
theorem readItems_tail {ts : List Tree} (h : ∀ t ∈ ts, IsReadBack t ∧ StartsValue t.compact.toList)
    (rest : List Char) (o fuel : Nat) (hfuel : (itemsTail ts).length ≤ fuel) : ∃ nodes place stop,
      readItems ⟨itemsTail ts ++ rest, o⟩ false fuel = (nodes, .ok place, some ⟨rest, stop⟩) ∧
        ItemsDenote nodes ts := by
  induction ts generalizing o fuel with
  | nil =>
    obtain ⟨fuel, rfl⟩ := Nat.exists_eq_succ_of_ne_zero (Nat.ne_of_gt hfuel)
    exact ⟨[], _, _, readItems_close false, .nil⟩
  | cons t ts ih =>
    rw [List.forall_mem_cons] at h
    obtain ⟨hread, c, tail, hstart, hblank, hclose⟩ := h.1
    rw [itemsTail, List.length_cons, List.length_append] at hfuel
    obtain ⟨fuel, rfl⟩ := Nat.exists_eq_succ_of_ne_zero (Nat.ne_of_gt (Nat.zero_lt_of_lt hfuel))
    obtain ⟨node, next, hvalue, hnode⟩ := hread (itemsTail ts ++ rest) (o + 1) fuel (by omega)
    obtain ⟨nodes, place, stop, hitems, hnodes⟩ := ih h.2 next fuel (by omega)
    refine ⟨node :: nodes, place, stop, ?_, .cons hnode hnodes⟩
    rw [itemsTail, List.cons_append, List.append_assoc]
    rw [hstart, List.cons_append] at hvalue ⊢
    exact readItems_next hblank hclose hvalue hitems

theorem readText_key (key : String) (rest : List Char) (o : Nat) :
    ∃ stop, readText ⟨keyText key ++ rest, o⟩ = .ok (.ok key, ⟨':' :: rest, stop⟩) := by
  have htext : keyText key ++ rest = key.toList.flatMap escape ++ '"' :: ':' :: rest := by
    simp [keyText]
  rw [htext]
  exact readText_quoted (':' :: rest) o key

/-- The entries that are left are read up to the brace, in as many steps as there are characters. -/
theorem readEntries_tail {es : List (String × Tree)} (h : ∀ e ∈ es, IsReadBack e.2)
    (rest : List Char) (o fuel : Nat) (hfuel : (entriesTail es).length ≤ fuel) : ∃ nodes place stop,
      readEntries ⟨entriesTail es ++ rest, o⟩ false fuel = (nodes, .ok place, some ⟨rest, stop⟩) ∧
        EntriesDenote nodes es := by
  induction es generalizing o fuel with
  | nil =>
    obtain ⟨fuel, rfl⟩ := Nat.exists_eq_succ_of_ne_zero (Nat.ne_of_gt hfuel)
    exact ⟨[], _, _, readEntries_close false, .nil⟩
  | cons e es ih =>
    obtain ⟨key, t⟩ := e
    rw [List.forall_mem_cons] at h
    have hread : IsReadBack t := h.1
    simp only [entriesTail, List.length_cons, List.length_append] at hfuel
    obtain ⟨fuel, rfl⟩ := Nat.exists_eq_succ_of_ne_zero (Nat.ne_of_gt (Nat.zero_lt_of_lt hfuel))
    obtain ⟨colon, hkey⟩ := readText_key key (t.compact.toList ++ entriesTail es ++ rest) (o + 2)
    obtain ⟨node, next, hvalue, hnode⟩ := hread (entriesTail es ++ rest) (colon + 1) fuel (by omega)
    obtain ⟨nodes, place, stop, hentries, hnodes⟩ := ih h.2 next fuel (by omega)
    simp only [entriesTail, List.cons_append, List.append_assoc] at hkey ⊢
    exact ⟨_, place, stop, readEntries_next hkey hvalue hentries, .cons hnode hnodes⟩

theorem isReadBack_array {items : List Tree} (h : ∀ t ∈ items, IsReadBack t ∧ StartsValue t.compact.toList) :
    IsReadBack (.array items) := by
  intro rest o fuel hfuel
  cases items with
  | nil =>
    obtain ⟨fuel, rfl⟩ := Nat.exists_eq_add_of_le' hfuel
    exact ⟨_, _, rfl, .array .nil⟩
  | cons t ts =>
    rw [List.forall_mem_cons] at h
    obtain ⟨hread, c, tail, hstart, hblank, hclose⟩ := h.1
    rw [toList_compact_array, List.length_cons, List.length_append] at hfuel
    -- The bracket takes a step and the list of items another; no item is empty, so there are that many.
    have hfirst : 0 < t.compact.toList.length := by
      rw [hstart]
      exact Nat.zero_lt_succ _
    have htail : 0 < (itemsTail ts).length := by
      cases ts <;> exact Nat.zero_lt_succ _
    obtain ⟨fuel, rfl⟩ := Nat.exists_eq_add_of_le' (show 2 ≤ fuel by omega)
    obtain ⟨node, next, hvalue, hnode⟩ := hread (itemsTail ts ++ rest) (o + 1) fuel (by omega)
    obtain ⟨nodes, place, stop, hitems, hnodes⟩ := readItems_tail h.2 rest next fuel (by omega)
    rw [toList_compact_array, List.cons_append, List.append_assoc]
    rw [hstart, List.cons_append] at hvalue ⊢
    exact ⟨_, stop, readValue_array (readItems_first hblank hclose hvalue hitems), .array (.cons hnode hnodes)⟩

theorem isReadBack_object {entries : List (String × Tree)} (h : ∀ e ∈ entries, IsReadBack e.2) :
    IsReadBack (.object entries) := by
  intro rest o fuel hfuel
  cases entries with
  | nil =>
    obtain ⟨fuel, rfl⟩ := Nat.exists_eq_add_of_le' hfuel
    exact ⟨_, _, rfl, .object .nil⟩
  | cons e es =>
    obtain ⟨key, t⟩ := e
    rw [List.forall_mem_cons] at h
    have hread : IsReadBack t := h.1
    rw [toList_compact_object, List.length_cons, List.length_cons, List.length_append, List.length_append] at hfuel
    obtain ⟨fuel, rfl⟩ := Nat.exists_eq_add_of_le' (show 2 ≤ fuel by omega)
    obtain ⟨colon, hkey⟩ := readText_key key (t.compact.toList ++ entriesTail es ++ rest) (o + 2)
    obtain ⟨node, next, hvalue, hnode⟩ := hread (entriesTail es ++ rest) (colon + 1) fuel (by omega)
    obtain ⟨nodes, place, stop, hentries, hnodes⟩ := readEntries_tail h.2 rest next fuel (by omega)
    rw [toList_compact_object]
    simp only [List.cons_append, List.append_assoc] at hkey ⊢
    exact ⟨_, stop, readValue_object (readEntries_first hkey hvalue hentries), .object (.cons hnode hnodes)⟩

/-- A tree without numbers is read back from its text. -/
theorem isReadBack {t : Tree} (h : IsNumberless t) : IsReadBack t := by
  induction t using Tree.induct with
  | null =>
    intro rest o fuel hfuel
    obtain ⟨fuel, rfl⟩ := Nat.exists_eq_add_of_le' hfuel
    exact ⟨_, _, rfl, .null⟩
  | bool b =>
    intro rest o fuel hfuel
    cases b <;>
    · obtain ⟨fuel, rfl⟩ := Nat.exists_eq_add_of_le' hfuel
      exact ⟨_, _, rfl, .bool⟩
  | number n => exact absurd .self (h n)
  | string s =>
    intro rest o fuel hfuel
    have htext : (Tree.string s).compact.toList = '"' :: (s.toList.flatMap escape ++ ['"']) := toList_quoted s
    rw [htext] at hfuel
    obtain ⟨fuel, rfl⟩ := Nat.exists_eq_succ_of_ne_zero (Nat.ne_of_gt (Nat.zero_lt_of_lt hfuel))
    obtain ⟨stop, hread⟩ := readText_quoted rest (o + 1) s
    rw [htext, List.cons_append, List.append_assoc]
    exact ⟨_, stop, readValue_string hread, .string⟩
  | array items ih =>
    have hitem {t : Tree} (ht : t ∈ items) : IsNumberless t := fun n hholds => h n (.item ht hholds)
    exact isReadBack_array fun t ht => ⟨ih t ht (hitem ht), startsValue_compact (hitem ht)⟩
  | object entries ih =>
    exact isReadBack_object fun e he => ih e.1 e.2 he fun n hholds => h n (.entry he hholds)

/-- The document in the text of a tree has a root that stands for it, and nothing follows. -/
theorem read_compact {t : Tree} (h : IsNumberless t) :
    ∃ root, Document.read t.compact.toList = ⟨root, .ok ()⟩ ∧ root.Denotes t := by
  obtain ⟨root, stop, hread, hroot⟩ := isReadBack h [] 0 (2 * t.compact.toList.length + 2) (by omega)
  rw [List.append_nil] at hread
  refine ⟨root, ?_, hroot⟩
  rw [Document.read, readNext]
  simp only [Cursor.ofText, hread]
  rfl

end CloudTemplate.Json
