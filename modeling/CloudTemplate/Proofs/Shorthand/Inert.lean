import CloudTemplate.Proofs.Shorthand.LayoutParts
import CloudTemplate.Proofs.Shorthand.Written
/-! Quotes, comments and brackets along a line. What is written for a call closes its quotes and its brackets and holds
no comment. -/
namespace CloudTemplate.Shorthand

def Quoting.after (q : Quoting) (cs : List Char) : Quoting := cs.foldl Quoting.next q

def startsBehind (atStart : Bool) (cs : List Char) : Bool := cs.foldl (fun _ c => c == ' ') atStart

theorem startsBehind_of_ne_nil {cs : List Char} (h : cs ≠ []) (atStart other : Bool) :
    startsBehind atStart cs = startsBehind other cs := by
  cases cs with
  | nil => contradiction
  | cons c cs => rfl

def closesQuotes (cs : List Char) : Bool := Quoting.after .outside cs == .outside

def HoldsNoComment (q : Quoting) (atStart : Bool) (cs : List Char) : Prop := (splitCommentFrom q atStart cs).2 = []

theorem Quoting.after_append (q : Quoting) (cs ds : List Char) : q.after (cs ++ ds) = (q.after cs).after ds :=
  List.foldl_append

theorem startsBehind_append (atStart : Bool) (cs ds : List Char) :
    startsBehind atStart (cs ++ ds) = startsBehind (startsBehind atStart cs) ds := List.foldl_append

theorem startsBehind_concat (atStart : Bool) (cs : List Char) (c : Char) :
    startsBehind atStart (cs ++ [c]) = (c == ' ') := startsBehind_append atStart cs [c]

theorem closesQuotes_iff {cs : List Char} : closesQuotes cs = true ↔ Quoting.after .outside cs = .outside := beq_iff_eq

theorem closesQuotes_of_not_mem {cs : List Char} (h : '"' ∉ cs) : closesQuotes cs = true := by
  induction cs with
  | nil => rfl
  | cons c cs ih =>
    obtain ⟨hc, hcs⟩ := List.ne_and_not_mem_of_not_mem_cons h
    have hnext : Quoting.next .outside c = .outside := if_neg hc.symm
    rw [closesQuotes_iff, Quoting.after, List.foldl_cons, hnext]
    exact closesQuotes_iff.1 (ih hcs)

theorem splitCommentFrom_append_of_noComment {q : Quoting} {atStart : Bool} {cs : List Char}
    (h : HoldsNoComment q atStart cs) (ds : List Char) :
    splitCommentFrom q atStart (cs ++ ds) =
      (cs ++ (splitCommentFrom (q.after cs) (startsBehind atStart cs) ds).1,
        (splitCommentFrom (q.after cs) (startsBehind atStart cs) ds).2) := by
  induction cs generalizing q atStart with
  | nil => rfl
  | cons c cs ih =>
    rw [HoldsNoComment, splitCommentFrom] at h
    split at h
    · contradiction
    · rename_i hc
      rw [List.cons_append, splitCommentFrom, if_neg hc, ih h]
      rfl

theorem HoldsNoComment.append {q : Quoting} {atStart : Bool} {cs ds : List Char} (h : HoldsNoComment q atStart cs)
    (h' : HoldsNoComment (q.after cs) (startsBehind atStart cs) ds) : HoldsNoComment q atStart (cs ++ ds) := by
  rw [HoldsNoComment, splitCommentFrom_append_of_noComment h]
  exact h'

theorem HoldsNoComment.of_append {q : Quoting} {atStart : Bool} {cs ds : List Char}
    (h : HoldsNoComment q atStart (cs ++ ds)) :
    HoldsNoComment q atStart cs ∧ HoldsNoComment (q.after cs) (startsBehind atStart cs) ds := by
  have hcs : HoldsNoComment q atStart cs := by
    induction cs generalizing q atStart with
    | nil => rfl
    | cons c cs ih =>
      rw [HoldsNoComment, List.cons_append, splitCommentFrom] at h
      split at h
      · contradiction
      · rename_i hc
        rw [HoldsNoComment, splitCommentFrom, if_neg hc]
        exact ih h
  refine ⟨hcs, ?_⟩
  rwa [HoldsNoComment, splitCommentFrom_append_of_noComment hcs] at h

/-- A comment that may not start at the front is one that may. -/
theorem HoldsNoComment.mono {q : Quoting} {atStart other : Bool} {cs : List Char} (h : HoldsNoComment q atStart cs)
    (hle : other ≤ atStart) : HoldsNoComment q other cs := by
  cases cs with
  | nil => rfl
  | cons c cs =>
    rw [HoldsNoComment, splitCommentFrom] at h ⊢
    split at h
    · contradiction
    · rename_i hc
      rw [if_neg fun hc' => hc ⟨hc'.1, hc'.2.1, hle hc'.2.2⟩]
      exact h

theorem holdsNoComment_of_not_mem {cs : List Char} (h : '#' ∉ cs) (q : Quoting) (atStart : Bool) :
    HoldsNoComment q atStart cs := by
  rw [HoldsNoComment, splitCommentFrom_eq h]

theorem balanceFrom_append (q : Quoting) (cs ds : List Char) :
    balanceFrom q (cs ++ ds) = balanceFrom q cs + balanceFrom (q.after cs) ds := by
  induction cs generalizing q with
  | nil => exact (Int.zero_add _).symm
  | cons c cs ih =>
    rw [List.cons_append, balanceFrom, balanceFrom, ih]
    exact (Int.add_assoc _ _ _).symm

theorem closesQuotes_append {cs ds : List Char} (h : closesQuotes cs = true) (h' : closesQuotes ds = true) :
    closesQuotes (cs ++ ds) = true := by
  rw [closesQuotes_iff] at h h' ⊢
  rw [Quoting.after_append, h, h']

theorem closesQuotes_behind_space {cs : List Char} (h : closesQuotes cs = true) (ds : List Char) :
    closesQuotes (cs ++ ' ' :: ds) = closesQuotes ds := by
  rw [closesQuotes, Quoting.after_append, closesQuotes_iff.1 h]
  rfl

theorem HoldsNoComment.behind_space {atStart : Bool} {cs ds : List Char} (h : HoldsNoComment .outside atStart (cs ++ ' ' :: ds))
    (hcs : closesQuotes cs = true) : HoldsNoComment .outside true ds := by
  have hspace : closesQuotes (cs ++ [' ']) = true := closesQuotes_append hcs rfl
  rw [List.append_cons] at h
  have hbehind := h.of_append.2
  rwa [closesQuotes_iff.1 hspace, startsBehind_concat] at hbehind

theorem bracketBalance_append {cs : List Char} (h : closesQuotes cs = true) (ds : List Char) :
    bracketBalance (cs ++ ds) = bracketBalance cs + bracketBalance ds := by
  rw [bracketBalance, balanceFrom_append, closesQuotes_iff.1 h]
  rfl

theorem HoldsNoComment.append_of_closesQuotes {atStart : Bool} {cs ds : List Char}
    (h : HoldsNoComment .outside atStart cs) (hcloses : closesQuotes cs = true)
    (h' : HoldsNoComment .outside (startsBehind atStart cs) ds) : HoldsNoComment .outside atStart (cs ++ ds) :=
  h.append (by rwa [closesQuotes_iff.1 hcloses])

structure IsBalanced (weight : Int) (cs : List Char) : Prop where
  closes : closesQuotes cs = true
  balance : bracketBalance cs = weight

theorem IsBalanced.append {m n : Int} {cs ds : List Char} (h : IsBalanced m cs) (h' : IsBalanced n ds) :
    IsBalanced (m + n) (cs ++ ds) where
  closes := closesQuotes_append h.closes h'.closes
  balance := by rw [bracketBalance_append h.closes, h.balance, h'.balance]

def closesItself (cs : List Char) : Bool := closesQuotes cs && bracketBalance cs == 0

theorem isBalanced_of_closesItself {cs : List Char} (h : closesItself cs = true) : IsBalanced 0 cs := by
  rw [closesItself, Bool.and_eq_true, beq_iff_eq] at h
  exact ⟨h.1, h.2⟩

structure IsPlainRun (weight : Int) (atStart : Bool) (cs : List Char) : Prop extends IsBalanced weight cs where
  noComment : HoldsNoComment .outside atStart cs

theorem IsPlainRun.append {m n : Int} {atStart : Bool} {cs ds : List Char} (h : IsPlainRun m atStart cs)
    (h' : IsPlainRun n (startsBehind atStart cs) ds) : IsPlainRun (m + n) atStart (cs ++ ds) where
  toIsBalanced := h.toIsBalanced.append h'.toIsBalanced
  noComment := h.noComment.append_of_closesQuotes h.closes h'.noComment

theorem IsPlainRun.mono {weight : Int} {atStart other : Bool} {cs : List Char} (h : IsPlainRun weight atStart cs)
    (hle : other ≤ atStart) : IsPlainRun weight other cs := ⟨h.toIsBalanced, h.noComment.mono hle⟩

abbrev IsInert (cs : List Char) : Prop := IsPlainRun 0 true cs

/-- An inert text in front of others does not change what they open and close. -/
theorem IsInert.behind {weight : Int} {cs ds : List Char} (h : IsInert cs) (h' : IsPlainRun weight true ds) :
    IsPlainRun weight true (cs ++ ds) := by
  have hrun := IsPlainRun.append h (h'.mono (Bool.le_true _))
  rwa [Int.zero_add] at hrun

theorem IsInert.append {cs ds : List Char} (h : IsInert cs) (h' : IsInert ds) : IsInert (cs ++ ds) := h.behind h'

/-- Brackets around an inert text. -/
theorem IsInert.enclosed {cs front back : List Char} (h : IsInert cs) (hfront : IsPlainRun 1 true front)
    (hback : IsPlainRun (-1) true back) : IsInert (front ++ (cs ++ back)) :=
  hfront.append ((IsPlainRun.append h (hback.mono (Bool.le_true _))).mono (Bool.le_true _))

def isIdle (c : Char) : Bool := c != '"' && c != '#' && bracketWeight c == 0

theorem isIdle_of {p : Char → Bool} {c : Char} (h : p c = true)
    (hp : (['"', '#', '[', ']', '\x7b', '\x7d'].all fun d => !p d) = true) : isIdle c = true := by
  rw [List.all_eq_true] at hp
  have hne : ∀ d ∈ ['"', '#', '[', ']', '\x7b', '\x7d'], c ≠ d := by
    intro d hd heq
    have hfree := hp d hd
    rw [← heq, h] at hfree
    contradiction
  simp only [List.mem_cons, List.not_mem_nil, or_false, forall_eq_or_imp, forall_eq] at hne
  simp [isIdle, bracketWeight, hne]

theorem isIdle_of_isGap {c : Char} (h : Text.isGap c = true) : isIdle c = true := isIdle_of h rfl

theorem isIdle_of_isNameChar {c : Char} (h : isNameChar c = true) : isIdle c = true := isIdle_of h rfl

theorem isInert_of_isIdle {cs : List Char} (h : ∀ c ∈ cs, isIdle c = true) : IsInert cs := by
  simp only [isIdle, Bool.and_eq_true, bne_iff_ne, beq_iff_eq] at h
  refine ⟨⟨closesQuotes_of_not_mem fun hmem => (h _ hmem).1.1 rfl, balanceFrom_eq_zero (fun c hc => (h c hc).2) _⟩, ?_⟩
  exact holdsNoComment_of_not_mem (fun hmem => (h _ hmem).1.2 rfl) _ _

theorem isInert_gapOf (cs : List Char) : IsInert (gapOf cs) :=
  isInert_of_isIdle fun _ hc => isIdle_of_isGap (List.mem_takeWhile_imp hc)

/-- Nothing between quotes ends them, starts a comment or counts as a bracket. -/
theorem inside_of_staysQuoted {body : List Char} (h : staysQuoted body = true) :
    Quoting.after .inside body = .inside ∧ (∀ atStart, HoldsNoComment .inside atStart body) ∧
      balanceFrom .inside body = 0 := by
  have hcons {q : Quoting} (hq : q ≠ .outside) (c : Char) (cs : List Char)
      (hcs : (∀ atStart, HoldsNoComment (q.next c) atStart cs) ∧ balanceFrom (q.next c) cs = 0) :
      (∀ atStart, HoldsNoComment q atStart (c :: cs)) ∧ balanceFrom q (c :: cs) = 0 := by
    refine ⟨fun atStart => ?_, ?_⟩
    · rw [HoldsNoComment, splitCommentFrom, if_neg (by simp [hq])]
      exact hcs.1 _
    · rw [balanceFrom, if_neg hq, hcs.2, Int.zero_add]
  induction body using escapeInduction with
  | nil => exact ⟨rfl, fun _ => rfl, rfl⟩
  | last => contradiction
  | quote cs => contradiction
  | pair c cs ih =>
    obtain ⟨hafter, hrest⟩ := ih h
    exact ⟨hafter, hcons (by decide) '\\' _ (hcons (by decide) c cs hrest)⟩
  | plain c cs hquote hbackslash ih =>
    rw [staysQuoted_cons hquote hbackslash] at h
    have hnext : Quoting.next .inside c = .inside := by rw [Quoting.next, if_neg hquote, if_neg hbackslash]
    obtain ⟨hafter, hrest⟩ := ih h
    refine ⟨?_, hcons (by decide) c cs (by rwa [hnext])⟩
    rw [Quoting.after, List.foldl_cons, hnext]
    exact hafter

theorem isInert_inQuotes {body : List Char} (h : staysQuoted body = true) : IsInert (inQuotes body) := by
  obtain ⟨hafter, hcomment, hbalance⟩ := inside_of_staysQuoted h
  have hopen : Quoting.after .outside ('"' :: body) = .inside := hafter
  refine ⟨⟨?_, ?_⟩, ?_⟩
  · rw [closesQuotes_iff, inQuotes, Quoting.after_append, hopen]
    rfl
  · have hbody : balanceFrom .outside ('"' :: body) = 0 := by
      rw [balanceFrom, if_pos rfl]
      exact (Int.zero_add _).trans hbalance
    rw [bracketBalance, inQuotes, balanceFrom_append, hbody, hopen]
    rfl
  · refine HoldsNoComment.append ?_ (holdsNoComment_of_not_mem (by decide) _ _)
    rw [HoldsNoComment, splitCommentFrom, if_neg (by simp)]
    exact hcomment _

theorem isInert_quote (cs : List Char) : IsInert (quote cs) := isInert_inQuotes (staysQuoted_escaped cs)

theorem isInert_attributeList (cs : List Char) : IsInert (attributeList cs) := by
  rw [attributeList]
  split
  · rename_i resource name _
    have hinner : IsInert (quote resource ++ ", ".toList ++ quote name) :=
      ((isInert_quote resource).append (isInert_of_isIdle (List.all_eq_true.1 rfl))).append (isInert_quote name)
    have hlist : IsInert (['['] ++ ((quote resource ++ ", ".toList ++ quote name) ++ [']'])) :=
      hinner.enclosed ⟨⟨rfl, rfl⟩, rfl⟩ ⟨⟨rfl, rfl⟩, rfl⟩
    simpa using hlist
  · exact isInert_quote cs

theorem isInert_numeral {cs : List Char} (h : isNumeric cs = true) : IsInert cs := by
  rw [isNumeric, Bool.and_eq_true] at h
  exact isInert_of_isIdle fun c hc => isIdle_of (Number.isNumeralChar_of_readNumeral h.1 c hc) rfl

/-- Scalars become inert arguments. -/
theorem isInert_plainArgument (name : String) (cs : List Char) : IsInert (argumentText name (.plain cs)) := by
  simp only [argumentText]
  split
  · exact isInert_attributeList _
  · split
    · exact isInert_numeral ‹_›
    · exact isInert_quote _

theorem isInert_quotedArgument (name : String) {cs : List Char} (h : staysQuoted cs = true) :
    IsInert (argumentText name (.quoted cs)) := by
  simp only [argumentText]
  split
  · exact isInert_attributeList _
  · exact isInert_inQuotes h

theorem isInert_callText {name : String} (hname : ∀ c ∈ name.toList, isNameChar c = true) {argument : Fragment}
    (h : IsInert (argumentText name argument)) : IsInert (callText name argument) := by
  have hspace : IsInert [' '] := ⟨⟨rfl, rfl⟩, rfl⟩
  have hcolon : IsInert [' ', ':', ' '] := ⟨⟨rfl, rfl⟩, rfl⟩
  have hkey := hspace.append ((isInert_inQuotes (staysQuoted_name hname)).append hcolon)
  have hcall : IsInert (['\x7b'] ++ (_ ++ ['\x7d'])) :=
    (hkey.append (h.append hspace)).enclosed ⟨⟨rfl, rfl⟩, rfl⟩ ⟨⟨rfl, rfl⟩, rfl⟩
  rw [callText_eq, callBody]
  simpa using hcall

theorem not_mem_quote {cs : List Char} (h : '\'' ∉ cs) : '\'' ∉ quote cs := by
  simp [quote, inQuotes, not_mem_escaped (show '\'' ≠ '\\' by decide) h]

theorem not_mem_attributeList {cs : List Char} (h : '\'' ∉ cs) : '\'' ∉ attributeList cs := by
  rw [attributeList, splitPoint]
  by_cases hpoint : cs.contains '.' = true
  · have hresource : '\'' ∉ quote (cs.takeWhile (· != '.')) :=
      not_mem_quote fun hmem => h ((List.takeWhile_sublist _).subset hmem)
    have hname : '\'' ∉ quote (cs.dropWhile (· != '.')).tail :=
      not_mem_quote fun hmem => h ((List.dropWhile_sublist _).subset (List.mem_of_mem_tail hmem))
    rw [if_pos hpoint]
    simpa using ⟨hresource, hname⟩
  · rw [if_neg hpoint]
    exact not_mem_quote h

theorem not_mem_argumentText (name : String) {cs : List Char} (h : '\'' ∉ cs) :
    '\'' ∉ argumentText name (.plain cs) ∧ '\'' ∉ argumentText name (.quoted cs) := by
  have htrim : '\'' ∉ Text.trim cs := fun hmem =>
    h ((List.dropWhile_sublist _).subset ((Text.prefix_trimEnd _).subset hmem))
  constructor
  · simp only [argumentText]
    split
    · exact not_mem_attributeList htrim
    · split
      · exact htrim
      · exact not_mem_quote htrim
  · simp only [argumentText]
    split
    · exact not_mem_attributeList h
    · simp [inQuotes, h]

theorem not_mem_callText {name : String} (hname : ∀ c ∈ name.toList, isNameChar c = true) {argument : Fragment}
    (h : '\'' ∉ argumentText name argument) : '\'' ∉ callText name argument := by
  have hkey : '\'' ∉ name.toList := fun hmem => absurd (hname _ hmem) (by decide)
  simp [callText_eq, callBody, inQuotes, hkey, h]

end CloudTemplate.Shorthand
