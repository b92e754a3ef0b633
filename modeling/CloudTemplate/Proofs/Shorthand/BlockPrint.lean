import CloudTemplate.Proofs.Shorthand.BlockBody
import CloudTemplate.Proofs.Shorthand.Words
/-! The print of a block with tags: what its lines are made of, and where they stand. -/
namespace CloudTemplate.Shorthand

def isPrinted (c : Char) : Bool := isTame c || c == ':' || c == '-'

theorem isPrinted_of_isTame {c : Char} (h : isTame c = true) : isPrinted c = true := by
  simp [isPrinted, h]

inductive Prints (lead : List Char) : List (List Char) → Prop
  | mk {c : Char} {cs : List Char} {lines : List (List Char)} (hblank : Text.isBlank c = false)
      (hprinted : ∀ d ∈ c :: cs, isPrinted d = true) (hfilled : ∀ line ∈ lines, Filled line)
      (hlines : ∀ line ∈ lines, ∀ d ∈ line, isPrinted d = true) : Prints lead ((lead ++ c :: cs) :: lines)

namespace Prints

theorem single {lead cs : List Char} {c : Char} (hblank : Text.isBlank c = false)
    (hprinted : ∀ d ∈ c :: cs, isPrinted d = true) : Prints lead [lead ++ c :: cs] :=
  .mk hblank hprinted (by simp) (by simp)

theorem filled_of_mem {column : Nat} {lines : List (List Char)} (h : Prints (Text.spaces column) lines) :
    ∀ line ∈ lines, Filled line := by
  cases h with
  | mk hblank _ hfilled _ =>
    intro line hline
    obtain rfl | hline := List.mem_cons.1 hline
    · exact (Filled.cons hblank _).spaces column
    · exact hfilled line hline

theorem isPrinted_of_mem {lead : List Char} {lines : List (List Char)} (h : Prints lead lines)
    (hlead : ∀ d ∈ lead, isPrinted d = true) : ∀ line ∈ lines, ∀ d ∈ line, isPrinted d = true := by
  cases h with
  | mk _ hprinted _ hlines =>
    intro line hline d hd
    obtain rfl | hline := List.mem_cons.1 hline
    · obtain hd | hd := List.mem_append.1 hd
      · exact hlead d hd
      · exact hprinted d hd
    · exact hlines line hline d hd

theorem append {lead : List Char} {column : Nat} {lines rest : List (List Char)} (h : Prints lead lines)
    (hrest : Prints (Text.spaces column) rest) : Prints lead (lines ++ rest) := by
  have hspaces : ∀ d ∈ Text.spaces column, isPrinted d = true := fun d hd => by
    rw [List.eq_of_mem_replicate hd]
    rfl
  cases h with
  | mk hblank hprinted hfilled hlines =>
    refine .mk hblank hprinted (fun line hline => ?_) fun line hline => ?_
    · obtain hline | hline := List.mem_append.1 hline
      · exact hfilled line hline
      · exact hrest.filled_of_mem line hline
    · obtain hline | hline := List.mem_append.1 hline
      · exact hlines line hline
      · exact hrest.isPrinted_of_mem hspaces line hline

/-- What is put in front of the first line may be the end of the text that it continues. -/
theorem assoc {lead front : List Char} {c : Char} {lines : List (List Char)}
    (h : Prints (lead ++ c :: front) lines) (hblank : Text.isBlank c = false)
    (hprinted : ∀ d ∈ c :: front, isPrinted d = true) : Prints lead lines := by
  cases h with
  | mk _ hbody hfilled hlines =>
    rename_i d cs rest _
    have htext : lead ++ c :: front ++ d :: cs = lead ++ c :: (front ++ d :: cs) := by simp
    rw [htext]
    refine .mk hblank (fun e he => ?_) hfilled hlines
    rw [← List.cons_append] at he
    obtain he | he := List.mem_append.1 he
    · exact hprinted e he
    · exact hbody e he

end Prints

theorem prints_shortWord (lead : List Char) (word : Word) (calls : List Intrinsic) :
    Prints lead [lead ++ shortWord word calls] := by
  have hprinted : ∀ d ∈ shortWord word calls, isPrinted d = true :=
    fun d hd => isPrinted_of_isTame (isTame_of_mem_shortWord hd)
  cases calls with
  | nil =>
    obtain ⟨c, cs, hcs, hc⟩ := word.text_eq_cons
    have htext : shortWord word [] = c :: cs := hcs
    rw [htext] at hprinted ⊢
    exact .single (isBlank_of_isAlphanum hc) hprinted
  | cons f calls => exact .single rfl hprinted

theorem prints_chainTags (lead : List Char) (f : Intrinsic) (calls : List Intrinsic) :
    Prints lead [lead ++ chainTags (f :: calls)] := by
  have hprinted : ∀ d ∈ chainTags (f :: calls), isPrinted d = true :=
    fun d hd => isPrinted_of_isTame (isTame_of_mem_chainTags hd)
  obtain ⟨cs, hcs⟩ := chainTags_cons f calls
  rw [hcs] at hprinted ⊢
  exact .single rfl hprinted

/-- A key in front of what it stands before. -/
theorem Prints.key {lead : List Char} {key : Letters} {lines : List (List Char)} {rest : List Char}
    (hrest : ∀ d ∈ rest, isPrinted d = true)
    (hlines : lines = [] ∨ ∃ column, Prints (Text.spaces column) lines) :
    Prints lead ((lead ++ key.text ++ ':' :: rest) :: lines) := by
  obtain ⟨c, cs, hcs, hc⟩ := key.text_eq_cons
  have hprinted : ∀ d ∈ c :: (cs ++ ':' :: rest), isPrinted d = true := by
    rw [← List.cons_append, ← hcs]
    intro d hd
    obtain hd | hd := List.mem_append.1 hd
    · exact isPrinted_of_isTame (key.isTame d hd)
    · obtain rfl | hd := List.mem_cons.1 hd
      · rfl
      · exact hrest d hd
  have hkey : Prints lead [lead ++ key.text ++ ':' :: rest] := by
    have htext : lead ++ key.text ++ ':' :: rest = lead ++ c :: (cs ++ ':' :: rest) := by simp [hcs]
    rw [htext]
    exact .single (isBlank_of_isAlphanum hc) hprinted
  obtain rfl | ⟨column, hlines⟩ := hlines
  · exact hkey
  · exact hkey.append hlines

mutual

theorem Block.prints_short (block : Block) (lead : List Char) (column : Nat) :
    Prints lead (block.short lead column) := by
  match block with
  | .mapping entries => exact entries.prints_short lead column
  | .sequence items => exact items.prints_short lead column

theorem BlockEntries.prints_short (entries : BlockEntries) (lead : List Char) (column : Nat) :
    Prints lead (entries.short lead column) := by
  match entries with
  | .last key value => exact value.prints_shortUnderKey lead key column
  | .more key value rest =>
    exact (value.prints_shortUnderKey lead key column).append (rest.prints_short (Text.spaces column) column)

theorem BlockItems.prints_short (items : BlockItems) (lead : List Char) (column : Nat) :
    Prints lead (items.short lead column) := by
  have hdash : ∀ d ∈ ['-', ' '], isPrinted d = true := List.all_eq_true.1 rfl
  match items with
  | .last value => exact (value.prints_shortItem (lead ++ ['-', ' ']) column).assoc rfl hdash
  | .more value rest =>
    exact ((value.prints_shortItem (lead ++ ['-', ' ']) column).assoc rfl hdash).append
      (rest.prints_short (Text.spaces column) column)

theorem BlockValue.prints_shortUnderKey (value : BlockValue) (lead : List Char) (key : Letters) (column : Nat) :
    Prints lead (value.shortUnderKey (lead ++ key.text ++ [':']) column) := by
  match value with
  | .word calls word =>
    have htext : lead ++ key.text ++ [':'] ++ ' ' :: shortWord word calls =
        lead ++ key.text ++ ':' :: ' ' :: shortWord word calls := by simp
    rw [BlockValue.shortUnderKey, htext]
    refine .key (fun d hd => ?_) (.inl rfl)
    obtain rfl | hd := List.mem_cons.1 hd
    · rfl
    · exact isPrinted_of_isTame (isTame_of_mem_shortWord hd)
  | .block [] block =>
    exact .key (by simp) (.inr ⟨_, block.prints_short (Text.spaces (column + 2)) (column + 2)⟩)
  | .block (f :: calls) block =>
    have htext : lead ++ key.text ++ [':'] ++ ' ' :: chainTags (f :: calls) =
        lead ++ key.text ++ ':' :: ' ' :: chainTags (f :: calls) := by simp
    rw [BlockValue.shortUnderKey, htext]
    · refine .key (fun d hd => ?_) (.inr ⟨_, block.prints_short (Text.spaces (column + 2)) (column + 2)⟩)
      obtain rfl | hd := List.mem_cons.1 hd
      · rfl
      · exact isPrinted_of_isTame (isTame_of_mem_chainTags hd)
    · simp

theorem BlockValue.prints_shortItem (value : BlockValue) (lead : List Char) (column : Nat) :
    Prints lead (value.shortItem lead column) := by
  match value with
  | .word calls word => exact prints_shortWord lead word calls
  | .block [] block => exact block.prints_short lead (column + 2)
  | .block (f :: calls) block =>
    exact (prints_chainTags lead f calls).append (block.prints_short (Text.spaces (column + 2)) (column + 2))

end

mutual

theorem Block.map_short (block : Block) (n : Nat) (lead : List Char) (column : Nat) :
    (block.short lead column).map (Text.spaces n ++ ·) = block.short (Text.spaces n ++ lead) (n + column) := by
  match block with
  | .mapping entries => exact entries.map_short n lead column
  | .sequence items => exact items.map_short n lead column

theorem BlockEntries.map_short (entries : BlockEntries) (n : Nat) (lead : List Char) (column : Nat) :
    (entries.short lead column).map (Text.spaces n ++ ·) = entries.short (Text.spaces n ++ lead) (n + column) := by
  match entries with
  | .last key value => simp [BlockEntries.short, value.map_shortUnderKey]
  | .more key value rest =>
    simp [BlockEntries.short, value.map_shortUnderKey, rest.map_short n, spaces_append]

theorem BlockItems.map_short (items : BlockItems) (n : Nat) (lead : List Char) (column : Nat) :
    (items.short lead column).map (Text.spaces n ++ ·) = items.short (Text.spaces n ++ lead) (n + column) := by
  match items with
  | .last value => simp [BlockItems.short, value.map_shortItem]
  | .more value rest => simp [BlockItems.short, value.map_shortItem, rest.map_short n, spaces_append]

theorem BlockValue.map_shortUnderKey (value : BlockValue) (n : Nat) (lead : List Char) (column : Nat) :
    (value.shortUnderKey lead column).map (Text.spaces n ++ ·) =
      value.shortUnderKey (Text.spaces n ++ lead) (n + column) := by
  match value with
  | .word calls word => simp [BlockValue.shortUnderKey]
  | .block [] block => simp [BlockValue.shortUnderKey, block.map_short n, spaces_append, Nat.add_assoc]
  | .block (f :: calls) block =>
    simp [BlockValue.shortUnderKey, block.map_short n, spaces_append, Nat.add_assoc]

theorem BlockValue.map_shortItem (value : BlockValue) (n : Nat) (lead : List Char) (column : Nat) :
    (value.shortItem lead column).map (Text.spaces n ++ ·) =
      value.shortItem (Text.spaces n ++ lead) (n + column) := by
  match value with
  | .word calls word => simp [BlockValue.shortItem]
  | .block [] block => simp [BlockValue.shortItem, block.map_short n, Nat.add_assoc]
  | .block (f :: calls) block =>
    simp [BlockValue.shortItem, block.map_short n, spaces_append, Nat.add_assoc]

end

end CloudTemplate.Shorthand
