import CloudTemplate.Proofs.Shorthand.Places
import CloudTemplate.Proofs.Shorthand.Written
/-! Values at the top of a line, written out: no call is left at a place within them, whatever trails
them. -/
namespace CloudTemplate.Shorthand

def isShut (cs : List Char) : Bool := !opensFlow (afterGap cs)

theorem isShut_append {cs rest : List Char} (h : ∀ c ∈ cs, opensFlow [c] = false) (hrest : isShut rest = true) :
    isShut (cs ++ rest) = true := by
  induction cs with
  | nil => exact hrest
  | cons c cs ih =>
    by_cases hc : Text.isGap c = true
    · have hgap : afterGap (c :: cs ++ rest) = afterGap (cs ++ rest) := List.dropWhile_cons_of_pos hc
      rw [isShut, hgap]
      exact ih fun d hd => h d (List.mem_cons_of_mem c hd)
    · rw [isShut, List.cons_append, afterGap_cons (by simpa using hc), Bool.not_eq_true']
      exact h c List.mem_cons_self

theorem opensFlow_of_isBlank {c : Char} (h : Text.isBlank c = true) : opensFlow [c] = false := by
  refine Bool.eq_false_iff.2 fun hopens => ?_
  simp only [opensFlow, Bool.or_eq_true, beq_iff_eq] at hopens
  obtain (rfl | rfl) | rfl := hopens <;> contradiction

theorem isBlank_of_opensFlow_cons {c : Char} {cs : List Char} (h : opensFlow (c :: cs) = true) : Text.isBlank c = false := by
  simp only [opensFlow, Bool.or_eq_true, beq_iff_eq] at h
  obtain (rfl | rfl) | rfl := h <;> decide

theorem opensFlow_of_isNameChar {c : Char} (h : isNameChar c = true) : opensFlow [c] = false := by
  refine Bool.eq_false_iff.2 fun hopens => ?_
  simp only [opensFlow, Bool.or_eq_true, beq_iff_eq] at hopens
  obtain (rfl | rfl) | rfl := hopens <;> contradiction

def IsName (name : String) : Prop := ∀ c ∈ name.toList, isNameChar c = true

theorem isNameChar_of_mem_joinNames {names : List String} (h : ∀ name ∈ names, IsName name) :
    ∀ c ∈ joinNames names, isNameChar c = true ∨ c = ' ' := by
  induction names with
  | nil => simp [joinNames]
  | cons name names ih =>
    have hname := h name List.mem_cons_self
    have hnames := ih fun other hother => h other (List.mem_cons_of_mem name hother)
    cases names with
    | nil =>
      intro c hc
      exact .inl (hname c (by simpa [joinNames] using hc))
    | cons other others =>
      have hjoin : joinNames (name :: other :: others) = name.toList ++ ' ' :: joinNames (other :: others) := by
        simp [joinNames, String.intercalate_cons_cons]
      intro c hc
      rw [hjoin, List.mem_append, List.mem_cons] at hc
      obtain hc | hc | hc := hc
      · exact .inl (hname c hc)
      · exact .inr hc
      · exact hnames c hc

theorem not_mem_joinNames {names : List String} (h : ∀ name ∈ names, IsName name) : '\n' ∉ joinNames names := by
  intro hmem
  obtain hc | hc := isNameChar_of_mem_joinNames h _ hmem <;> contradiction

/-- A text that ends itself holds no call, whatever follows. -/
theorem IsClosed.not_flowCall {cs : List Char} (h : IsClosed cs) (behind : List Char) : ¬FlowCall .read (cs ++ behind) := by
  intro hcall
  obtain ⟨value, hread, hfree⟩ := h false behind
  rw [hcall.isCallFree_eq_false value _ hread] at hfree
  contradiction

inductive Stands (left : List Char) : Fragment → Prop
  | plain {cs : List Char} (hline : '\n' ∉ cs) (h : ∀ z, isShut z = true → isShut (cs ++ z) = true)
      (hleft : ∀ c ∈ left, Text.isBlank c = true) : Stands left (.plain cs)
  | quoted {cs : List Char} (h : staysQuoted cs = true) (hline : '\n' ∉ cs) : Stands left (.quoted cs)
  | closed {cs : List Char} (h : FlowText true cs) (hopens : opensFlow cs = true) (hclosed : IsClosed cs) :
      Stands left (.structured cs)
  | kept {cs : List Char} (hline : '\n' ∉ cs) (h : ∀ z, isShut z = true → Kept (cs ++ z))
      (hany : ∀ z, isShut z = true → Opens (cs ++ z) → ∀ behind, Kept (cs ++ behind))
      (hleft : ∀ c ∈ left, Text.isBlank c = true) : Stands left (.structured cs)
  | waiting {names : List String} {indicator : Option (List Char)} (hne : names ≠ []) (hnames : ∀ name ∈ names, IsName name)
      (hindicator : ∀ text ∈ indicator, isBlockIndicator text = true) (hleft : left = []) :
      Stands left (.waiting names indicator)

namespace Stands

variable {left : List Char} {fragment : Fragment}

theorem applyName (h : Stands left fragment) {name : String} (hname : IsName name) :
    Stands left (applyName name fragment) := by
  have hcall {argument : Fragment} (h : FlowText true (argumentText name argument)) :
      Stands left (.structured (callText name argument)) := by
    have hbody : PairText true _ := Grammar.tags.isPairs_callBody hname h
    rw [callText_eq]
    exact .closed (.mapping hbody) rfl (isClosed_mapping hbody)
  cases h with
  | plain hline => exact hcall (Grammar.tags.isValue_plainArgument name (forall_ne_lineFeed_iff.2 hline))
  | quoted h hline => exact hcall (Grammar.tags.isValue_quotedArgument name h (forall_ne_lineFeed_iff.2 hline))
  | closed h => exact hcall h
  | @kept cs hline h _ hleft =>
    have hquote : '"' ∉ name.toList := fun h => absurd (hname _ h) (by decide)
    have hbackslash : '\\' ∉ name.toList := fun h => absurd (hname _ h) (by decide)
    have hline' : '\n' ∉ name.toList := fun h => absurd (hname _ h) (by decide)
    have hany (z : List Char) : Kept (callText name (.structured cs) ++ z) := by
      have hclose : isShut ([' ', '\x7d'] ++ z) = true := rfl
      have hinner := Kept.call (staysQuoted_eq_true hquote hbackslash) (h _ hclose)
      rw [callText_eq]
      simpa [callBody, argumentText] using hinner
    refine .kept ?_ (fun z _ => hany z) (fun _ _ _ => hany) hleft
    rw [callText_eq]
    simp [callBody, argumentText, inQuotes, hline, hline']
  | waiting _ hnames hindicator hleft =>
    refine .waiting (List.cons_ne_nil _ _) (fun other hother => ?_) hindicator hleft
    cases hother with
    | head => exact hname
    | tail _ hother => exact hnames other hother

/-- A tag that is kept before a value. -/
theorem tagged (h : Stands left fragment) {name : List Char} (hname : ∀ c ∈ name, isTagEnd c = false)
    (hline : '\n' ∉ name) : Stands left (.structured ('!' :: '!' :: (name ++ ' ' :: fragment.text))) := by
  have hscalar {cs : List Char} (hcs : '\n' ∉ cs) (h : ∀ z, isShut z = true → isShut (cs ++ z) = true)
      (hleft : ∀ c ∈ left, Text.isBlank c = true) : Stands left (.structured ('!' :: '!' :: (name ++ ' ' :: cs))) := by
    have hshut (z : List Char) (hz : isShut z = true) : Shorthand.opensFlow (afterGap (cs ++ z)) = false := by
      simpa [isShut] using h z hz
    refine .kept (by simp [hline, hcs]) (fun z hz => by simpa using Kept.scalar hname (hshut z hz))
      (fun z hz hopens => ?_) hleft
    have hinner : Opens (afterGap (cs ++ z)) := .of_tagged hname (by simpa using hopens)
    have hopens := hinner.opensFlow
    rw [hshut z hz] at hopens
    contradiction
  cases h with
  | plain hcs h hleft => exact hscalar hcs h hleft
  | quoted h hbody => exact .closed (.tagged rfl hname hline (.quoted h hbody)) rfl (isClosed_tagged hname (isClosed_inQuotes h))
  | closed h _ hclosed => exact .closed (.tagged rfl hname hline h) rfl (isClosed_tagged hname hclosed)
  | @kept cs hcs h hany hleft =>
    refine .kept (by simp [hline, hcs, Fragment.text]) (fun z hz => ?_) (fun z hz hopens behind => ?_) hleft
    · simpa [Fragment.text] using Kept.tagged hname (h z hz)
    · have hinner : Opens (afterGap (cs ++ z)) := .of_tagged hname (by simpa [Fragment.text] using hopens)
      rw [(h z hz).afterGap] at hinner
      simpa [Fragment.text] using Kept.tagged hname (hany z hz hinner behind)
  | waiting _ hnames _ hleft =>
    refine hscalar (not_mem_joinNames hnames) (fun z hz => isShut_append (fun c hc => ?_) hz) (by simp [hleft])
    obtain hc | rfl := isNameChar_of_mem_joinNames hnames c hc
    · exact opensFlow_of_isNameChar hc
    · rfl

/-- No call is left at a place, and a text that trails the value adds none. -/
theorem not_flowCall (h : Stands left fragment) {z : List Char} (hz : isShut z = true) :
    ¬FlowCall .read (fragment.text ++ (left ++ z)) := by
  have hblank (hleft : ∀ c ∈ left, Text.isBlank c = true) : isShut (left ++ z) = true :=
    isShut_append (fun c hc => opensFlow_of_isBlank (hleft c hc)) hz
  have hshut {cs : List Char} (h : isShut cs = true) : ¬FlowCall .read cs := by
    intro hcall
    rw [isShut, hcall.afterGap, hcall.opensFlow] at h
    contradiction
  cases h with
  | plain _ h hleft => exact hshut (h _ (hblank hleft))
  | quoted h => exact (isClosed_inQuotes h).not_flowCall _
  | closed _ _ h => exact h.not_flowCall _
  | kept _ h _ hleft => exact (h _ (hblank hleft)).not_flowCall
  | waiting _ hnames _ hleft =>
    refine hshut (isShut_append (fun c hc => ?_) (by simpa [hleft] using hz))
    obtain hc | rfl := isNameChar_of_mem_joinNames hnames c hc
    · exact opensFlow_of_isNameChar hc
    · rfl

/-- No call is left at a place, whatever follows, where a collection or a call starts. -/
theorem not_flowCall_of_opens {cs : List Char} (h : Stands left (.structured cs)) {z : List Char} (hz : isShut z = true)
    (hopens : Opens (cs ++ (left ++ z))) (behind : List Char) : ¬FlowCall .read (cs ++ behind) := by
  cases h with
  | closed _ _ h => exact h.not_flowCall behind
  | kept _ _ hany hleft =>
    have hshut : isShut (left ++ z) = true := isShut_append (fun c hc => opensFlow_of_isBlank (hleft c hc)) hz
    exact (hany _ hshut hopens behind).not_flowCall

theorem opensFlow {cs : List Char} (h : Stands left (.structured cs)) : opensFlow cs = true := by
  cases h with
  | closed _ hopens => exact hopens
  | kept _ h => simpa using (h [] rfl).opensFlow

theorem not_mem_lineFeed (h : Stands left fragment) : '\n' ∉ fragment.text := by
  cases h with
  | plain hline => exact hline
  | quoted _ hline => exact not_mem_inQuotes hline
  | closed h => exact h.not_mem_lineFeed
  | kept hline => exact hline
  | waiting _ hnames => exact not_mem_joinNames hnames

end Stands

/-- A plain scalar at the top of a line leaves blanks only. -/
theorem stands_plainText {cs : List Char} (hstart : ∀ c ∈ cs.head?, Text.isGap c = false)
    (hopens : Shorthand.opensFlow cs = false) (hline : '\n' ∉ cs) :
    Stands (cs.drop (plainText false cs).length) (.plain (plainText false cs)) := by
  have htext : plainText false cs <+: cs := Text.prefix_trimEnd cs
  refine .plain (fun hmem => hline (htext.subset hmem)) (fun z hz => ?_) fun c hc => ?_
  · cases hplain : plainText false cs with
    | nil => exact hz
    | cons c ds =>
      obtain ⟨tail, rfl⟩ := hplain ▸ htext
      rw [isShut, List.cons_append, afterGap_cons (hstart c rfl), Bool.not_eq_true']
      exact hopens
  · obtain ⟨blanks, hsplit, hblanks⟩ := Text.exists_trimEnd_append cs
    rw [plainText, if_neg (by decide), ← hsplit, List.drop_left' (by rw [hsplit])] at hc
    exact hblanks c hc

/-- Every value that is read at the top of a line stands. -/
theorem Flow.stands (value : Flow) {cs left : List Char} (h : flowAt false cs = .ok (value, left))
    (hline : '\n' ∉ cs) : Stands left value.fragment := by
  have hafter := not_mem_of_suffix (afterGap_suffix cs) hline
  -- A collection closes itself; only a plain scalar, behind kept tags or not, goes on into what trails it.
  cases value with
  | plain text =>
    cases flowAt_ok h with
    | nothing => exact .plain (by simp) (fun z hz => hz) (by simp)
    | plain _ hopens _ => exact stands_plainText (isGap_head_afterGap cs) hopens hafter
  | quoted text =>
    cases flowAt_ok h with
    | quoted hcs hclose =>
      obtain ⟨hstays, hrest⟩ := closeQuote_ok hclose
      rw [hcs, hrest] at hafter
      exact .quoted hstays fun hmem => hafter (by simp [hmem])
  | sequence items =>
    cases flowAt_ok h with
    | sequence hcs hread =>
      have hrest := forall_ne_lineFeed_iff.2 (not_mem_of_suffix (suffix_of_afterGap hcs) hline)
      have hitems : ItemText true items.text := items.isWritten (G := .tags) hread hrest items.all_true
      exact .closed (.sequence hitems) rfl (isClosed_sequence hitems)
  | mapping pairs =>
    cases flowAt_ok h with
    | mapping hcs hread =>
      have hrest := forall_ne_lineFeed_iff.2 (not_mem_of_suffix (suffix_of_afterGap hcs) hline)
      have hpairs : PairText true pairs.text := pairs.isWritten (G := .tags) hread hrest pairs.all_true
      exact .closed (.mapping hpairs) rfl (isClosed_mapping hpairs)
  | kept tag inner =>
    cases flowAt_ok h with
    | @kept rest _ _ hcs hread =>
      have hinner := inner.stands hread (not_mem_of_suffix (afterTag_suffix hcs) hline)
      refine hinner.tagged (fun c hc => isTagEnd_of_mem hc) fun hmem => hafter ?_
      rw [hcs]
      simp [(List.takeWhile_sublist _).subset hmem]
  | call f argument =>
    cases flowAt_ok h with
    | @call rest _ _ _ hcs hread =>
      have hargument := argument.stands hread (not_mem_of_suffix (afterName_suffix hcs) hline)
      exact hargument.applyName fun c hc => isNameChar_of_mem_longName hc
  | opened f indicator =>
    have hname : ∀ name ∈ [f.longName], IsName name := by
      intro name hname c hc
      rw [List.mem_singleton.1 hname] at hc
      exact isNameChar_of_mem_longName hc
    cases flowAt_ok h with
    | opened => exact .waiting (List.cons_ne_nil _ _) hname (by simp) rfl
    | announced _ _ _ hindicator => exact .waiting (List.cons_ne_nil _ _) hname (by simpa using hindicator) rfl

end CloudTemplate.Shorthand
