import CloudTemplate.Shorthand.Block
/-! The lines that belong to an owner when all of them stand to its right, and moving them: lines that
are moved keep their places relative to each other. -/
namespace CloudTemplate.Shorthand

theorem takeWhile_isBlank_spaces (n : Nat) (cs : List Char) :
    (Text.spaces n ++ cs).takeWhile Text.isBlank = Text.spaces n ++ cs.takeWhile Text.isBlank :=
  List.takeWhile_append_of_pos fun c hc => by rw [List.eq_of_mem_replicate hc]; rfl

theorem trimStart_spaces (n : Nat) (cs : List Char) :
    Text.trimStart (Text.spaces n ++ cs) = Text.trimStart cs :=
  List.dropWhile_append_of_pos fun c hc => by rw [List.eq_of_mem_replicate hc]; rfl

theorem indentation_spaces (n : Nat) (cs : List Char) :
    Text.indentation (Text.spaces n ++ cs) = n + Text.indentation cs := by
  rw [Text.indentation, takeWhile_isBlank_spaces, Text.indentation]
  induction n with
  | zero => simp [Text.spaces]
  | succ n ih =>
    rw [Text.spaces, List.replicate_succ, List.cons_append, Text.byteLength]
    rw [Text.spaces] at ih
    have hsize : ' '.utf8Size = 1 := rfl
    omega

theorem isBlankText_spaces (n : Nat) (cs : List Char) :
    Text.isBlankText (Text.spaces n ++ cs) = Text.isBlankText cs := by
  have hspaces : (Text.spaces n).all Text.isBlank = true := by
    rw [List.all_eq_true]
    exact fun c hc => by rw [List.eq_of_mem_replicate hc]; rfl
  rw [Text.isBlankText, List.all_append, hspaces, Bool.true_and]
  rfl

theorem spaces_append (m n : Nat) : Text.spaces m ++ Text.spaces n = Text.spaces (m + n) :=
  List.replicate_append_replicate

structure Filled (line : List Char) : Prop where
  eq : Text.spaces (Text.indentation line) ++ Text.trimStart line = line
  notBlank : Text.isBlankText line = false

theorem indentation_cons {c : Char} (h : Text.isBlank c = false) (cs : List Char) :
    Text.indentation (c :: cs) = 0 := by
  rw [Text.indentation, List.takeWhile_cons_of_neg (by simp [h])]
  rfl

theorem trimStart_cons {c : Char} (h : Text.isBlank c = false) (cs : List Char) :
    Text.trimStart (c :: cs) = c :: cs := List.dropWhile_cons_of_neg (by simp [h])

theorem Filled.cons {c : Char} (h : Text.isBlank c = false) (cs : List Char) : Filled (c :: cs) where
  eq := by rw [indentation_cons h, trimStart_cons h]; rfl
  notBlank := by simp [Text.isBlankText, h]

theorem Filled.spaces {line : List Char} (h : Filled line) (n : Nat) : Filled (Text.spaces n ++ line) where
  eq := by rw [indentation_spaces, trimStart_spaces, ← spaces_append, List.append_assoc, h.eq]
  notBlank := by rw [isBlankText_spaces, h.notBlank]

theorem belongs_spaces {owner column : Nat} (h : owner < column) (underKey : Bool) (line : List Char) :
    belongs owner underKey (Text.spaces column ++ line) = true := by
  have hindent : owner < Text.indentation (Text.spaces column ++ line) := by
    rw [indentation_spaces]
    omega
  simp [belongs, hindent]

/-- A line that does not belong to an owner belongs to none further in. -/
theorem belongs_of_lt {owner inner : Nat} (h : owner < inner) {underKey : Bool} {line : List Char}
    (hline : belongs owner underKey line = false) (innerKey : Bool) :
    belongs inner innerKey line = false := by
  simp only [belongs, Bool.or_eq_false_iff, decide_eq_false_iff_not] at hline ⊢
  refine ⟨⟨hline.1.1, by omega⟩, ?_⟩
  have hne : (Text.indentation line == inner) = false := by
    rw [beq_eq_false_iff_ne]
    omega
  simp [hne]

theorem belongs_of_underKey {owner : Nat} {line : List Char} (h : belongs owner true line = false) :
    belongs owner false line = false := by
  simp only [belongs, Bool.or_eq_false_iff] at h ⊢
  exact ⟨h.1, rfl⟩

theorem bodyOf_append {owner : Nat} {underKey : Bool} {body rest : List SourceLine}
    (hbody : ∀ line ∈ body, belongs owner underKey line.text = true)
    (hfilled : ∀ line ∈ body, Text.isBlankText line.text = false)
    (hrest : ∀ line ∈ rest.head?, belongs owner underKey line.text = false) :
    bodyOf owner underKey (body ++ rest) = body := by
  have htake : (body ++ rest).takeWhile (fun line => belongs owner underKey line.text) = body := by
    rw [List.takeWhile_append_of_pos hbody]
    cases rest with
    | nil => simp
    | cons line rest => rw [List.takeWhile_cons_of_neg (by simp [hrest line rfl]), List.append_nil]
  have hend : body.reverse.dropWhile (fun line => Text.isBlankText line.text) = body.reverse := by
    cases hreverse : body.reverse with
    | nil => rfl
    | cons line lines =>
      have hline : line ∈ body := List.mem_reverse.1 (hreverse ▸ List.mem_cons_self)
      rw [List.dropWhile_cons_of_neg (by simp [hfilled line hline])]
  rw [bodyOf, htake, dropBlankEnd, hend, List.reverse_reverse]

theorem leastIndentation_spaces {lines : List SourceLine} {texts : List (List Char)} {column : Nat}
    (hlines : lines.map SourceLine.text = texts.map (Text.spaces column ++ ·))
    (hfilled : ∀ text ∈ texts, Filled text) (hleast : ∃ text ∈ texts, Text.indentation text = 0) :
    leastIndentation lines = some column := by
  have hblank : ∀ line ∈ lines, Text.isBlankText line.text = false := by
    intro line hline
    have hmem : line.text ∈ texts.map (Text.spaces column ++ ·) := hlines ▸ List.mem_map_of_mem hline
    obtain ⟨text, htext, heq⟩ := List.mem_map.1 hmem
    rw [← heq, isBlankText_spaces, (hfilled text htext).notBlank]
  have hfilter : (lines.filter fun line => !Text.isBlankText line.text) = lines :=
    List.filter_eq_self.2 fun line hline => by simp [hblank line hline]
  have hindents : lines.map (fun line => Text.indentation line.text) =
      texts.map fun text => column + Text.indentation text := by
    have h := congrArg (List.map Text.indentation) hlines
    simpa only [List.map_map, Function.comp_def, indentation_spaces] using h
  rw [leastIndentation, hfilter, hindents, List.min?_eq_some_iff]
  obtain ⟨text, htext, hzero⟩ := hleast
  refine ⟨List.mem_map.2 ⟨text, htext, by omega⟩, fun n hn => ?_⟩
  obtain ⟨other, -, rfl⟩ := List.mem_map.1 hn
  omega

/-- Lines moved as a whole: the least indented of them stands at the column it is moved to. -/
theorem map_text_reindent {lines : List SourceLine} {texts : List (List Char)} {column : Nat} (target : Nat)
    (hlines : lines.map SourceLine.text = texts.map (Text.spaces column ++ ·))
    (hfilled : ∀ text ∈ texts, Filled text) (hleast : ∃ text ∈ texts, Text.indentation text = 0) :
    (reindent target lines).map SourceLine.text = texts.map (Text.spaces target ++ ·) := by
  let move (text : List Char) : List Char :=
    if Text.isBlankText text then []
    else Text.spaces (Text.indentation text + target - column) ++ Text.trimStart text
  have hmove : ∀ text ∈ texts, move (Text.spaces column ++ text) = Text.spaces target ++ text := by
    intro text htext
    have hindent : column + Text.indentation text + target - column = target + Text.indentation text := by
      omega
    simp only [move, isBlankText_spaces, (hfilled text htext).notBlank, indentation_spaces, trimStart_spaces,
      hindent, Bool.false_eq_true, if_false]
    rw [← spaces_append, List.append_assoc, (hfilled text htext).eq]
  calc (reindent target lines).map SourceLine.text
      = lines.map (fun line => move line.text) := by
        simp only [reindent, leastIndentation_spaces hlines hfilled hleast, List.map_map]
        refine List.map_congr_left fun line _ => ?_
        simp only [Function.comp_apply, move, Option.getD_some]
        split <;> rfl
    _ = (texts.map (Text.spaces column ++ ·)).map move := by rw [← hlines, List.map_map]; rfl
    _ = texts.map (Text.spaces target ++ ·) := by
        rw [List.map_map]
        exact List.map_congr_left hmove

end CloudTemplate.Shorthand
