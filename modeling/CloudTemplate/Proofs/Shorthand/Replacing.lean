import CloudTemplate.Proofs.Shorthand.ReadBack
/-! Texts that can stand where others stood: they close their quotes as those did, hold no comment if those held none,
and leave no more brackets open. -/
namespace CloudTemplate.Shorthand

theorem startsBehind_mono {early late : Bool} (hle : late ≤ early) (cs : List Char) :
    startsBehind late cs ≤ startsBehind early cs := by
  cases cs with
  | nil => exact hle
  | cons c cs => exact fun h => h

structure Replaces (weight : Int) (source text : List Char) : Prop where
  balanced : IsBalanced weight source
  run {early late : Bool} (hle : late ≤ early) (h : HoldsNoComment .outside early source) : IsPlainRun weight late text
  starts {early late : Bool} (hle : late ≤ early) : startsBehind late text ≤ startsBehind early source
  single (h : '\'' ∉ source) : '\'' ∉ text

namespace Replaces

variable {m n : Int} {source text : List Char}

theorem refl {cs : List Char} (h : IsBalanced n cs) : Replaces n cs cs where
  balanced := h
  run hle hcomment := ⟨h, hcomment.mono hle⟩
  starts hle := startsBehind_mono hle cs
  single h := h

theorem append {source' text' : List Char} (h : Replaces m source text) (h' : Replaces n source' text') :
    Replaces (m + n) (source ++ source') (text ++ text') where
  balanced := h.balanced.append h'.balanced
  run hle hcomment := by
    obtain ⟨hfirst, hsecond⟩ := hcomment.of_append
    rw [closesQuotes_iff.1 h.balanced.closes] at hsecond
    exact (h.run hle hfirst).append (h'.run (h.starts hle) hsecond)
  starts hle := by
    rw [startsBehind_append, startsBehind_append]
    exact h'.starts (h.starts hle)
  single hsource := by
    rw [List.mem_append, not_or] at hsource ⊢
    exact ⟨h.single hsource.1, h'.single hsource.2⟩

end Replaces

structure Suits (source argument : List Char) : Prop where
  balanced : IsBalanced 0 source
  inert {atStart : Bool} (h : HoldsNoComment .outside atStart source) : IsInert argument
  single (h : '\'' ∉ source) : '\'' ∉ argument

/-- A comment cannot start in front of another character than a number sign. -/
theorem IsPlainRun.isInert {cs : List Char} (h : IsPlainRun 0 false cs) (hhead : cs.head? ≠ some '#') : IsInert cs := by
  refine ⟨h.toIsBalanced, ?_⟩
  have hnone := h.noComment
  cases cs with
  | nil => rfl
  | cons c cs =>
    have hc : c ≠ '#' := by simpa using hhead
    rw [HoldsNoComment, splitCommentFrom, if_neg (by simp [hc])] at hnone ⊢
    exact hnone

theorem Replaces.suits {source text : List Char} (h : Replaces 0 source text) (hopens : opensFlow text = true) :
    Suits source text where
  balanced := h.balanced
  inert hcomment := by
    refine (h.run (Bool.false_le _) hcomment).isInert fun hhead => ?_
    obtain ⟨rest, rfl⟩ := List.head?_eq_some_iff.1 hhead
    contradiction
  single := h.single

/-- Behind the one space that is put behind a tag. -/
theorem Replaces.spaced {source text gap : List Char} (h : Replaces 0 source text) (hgap : IsInert gap) (hne : text ≠ [])
    (hhead : text.head? ≠ some '#') : Replaces 0 (gap ++ source) (' ' :: text) where
  balanced := hgap.toIsBalanced.append h.balanced
  run {early late} hle hcomment := by
    have hsource := hcomment.of_append.2
    rw [closesQuotes_iff.1 hgap.closes] at hsource
    have hspace : IsInert [' '] := ⟨⟨rfl, rfl⟩, rfl⟩
    exact (hspace.append ((h.run (Bool.false_le _) hsource).isInert hhead)).mono (Bool.le_true _)
  starts {early late} _ := by
    have hspace : startsBehind late (' ' :: text) = startsBehind false text := startsBehind_of_ne_nil hne _ _
    rw [hspace, startsBehind_append]
    exact h.starts (Bool.false_le _)
  single hsource := by
    rw [List.mem_append, not_or] at hsource
    simp [h.single hsource.2]

/-- A call behind the tag it was written with. -/
theorem Suits.callText {source : List Char} {name : String} {argument : Fragment}
    (h : Suits source (argumentText name argument)) (hname : ∀ c ∈ name.toList, isNameChar c = true)
    {front : List Char} (hfront : IsInert front) : Suits (front ++ source) (callText name argument) where
  balanced := hfront.toIsBalanced.append h.balanced
  inert hcomment := by
    have hsource := hcomment.of_append.2
    rw [closesQuotes_iff.1 hfront.closes] at hsource
    exact isInert_callText hname (h.inert hsource)
  single hsource := not_mem_callText hname (h.single fun hmem => hsource (List.mem_append_right _ hmem))

/-- A call ends in a brace, so that nothing behind it starts a comment. -/
theorem Suits.replaces_callText {source : List Char} {name : String} {argument : Fragment}
    (h : Suits source (Shorthand.callText name argument)) : Replaces 0 source (Shorthand.callText name argument) where
  balanced := h.balanced
  run _ hcomment := (h.inert hcomment).mono (Bool.le_true _)
  starts _ := by
    have htext : Shorthand.callText name argument = '\x7b' :: ' ' :: (inQuotes name.toList ++ " : ".toList ++
        argumentText name argument ++ [' ']) ++ ['\x7d'] := by simp [callText_eq, callBody]
    rw [htext, startsBehind_concat]
    exact Bool.false_le _
  single := h.single

structure Fragment.Follows (source : List Char) (fragment : Fragment) : Prop where
  replaces : Replaces 0 source fragment.text
  suits (name : String) : Suits source (argumentText name fragment)
  settled (names : List String) (indicator : Option (List Char)) : fragment ≠ .waiting names indicator

theorem Fragment.Follows.applyName {source : List Char} {fragment : Fragment} (h : fragment.Follows source)
    {name : String} (hname : ∀ c ∈ name.toList, isNameChar c = true) {front : List Char} (hfront : IsInert front) :
    (applyName name fragment).Follows (front ++ source) := by
  have hcall := (h.suits name).callText hname hfront
  have hfollows : (Fragment.structured (callText name fragment)).Follows (front ++ source) :=
    ⟨hcall.replaces_callText, fun _ => hcall, by simp⟩
  cases fragment with
  | waiting names indicator => exact absurd rfl (h.settled names indicator)
  | _ => exact hfollows

theorem Replaces.follows {source text : List Char} (h : Replaces 0 source text) (hopens : opensFlow text = true) :
    (Fragment.structured text).Follows source := ⟨h, fun _ => h.suits hopens, by simp⟩

theorem replaces_gapOf (cs : List Char) : Replaces 0 (gapOf cs) (gapOf cs) := .refl (isInert_gapOf cs).toIsBalanced

/-- The mark, the name and the gap before the argument of a call. -/
theorem exists_tag (cs : List Char) : ∃ front, IsInert ('!' :: front) ∧ cs = front ++ afterName cs := by
  refine ⟨cs.takeWhile Char.isAlphanum ++ gapOf (cs.dropWhile Char.isAlphanum), ?_, ?_⟩
  · refine isInert_of_isIdle fun c hc => ?_
    rw [List.mem_cons, List.mem_append] at hc
    obtain rfl | hc | hc := hc
    · rfl
    · exact isIdle_of (List.mem_takeWhile_imp hc) rfl
    · exact isIdle_of_isGap (List.mem_takeWhile_imp hc)
  · rw [List.append_assoc, afterName, gapOf_append_afterGap, List.takeWhile_append_dropWhile]

mutual

theorem Flow.follows (value : Flow) {cs left : List Char} (h : flowAt true cs = .ok (value, left))
    (hall : value.isSteady = true) : ∃ source, afterGap cs = source ++ left ∧ value.fragment.Follows source := by
  have hsame (hscalar : (∃ text, value = .plain text) ∨ ∃ text, value = .quoted text) :
      afterGap cs = value.fragment.text ++ left :=
    List.append_cancel_left ((gapOf_append_afterGap cs).trans (text_append_of_scalar h hscalar).symm)
  cases value with
  | plain text =>
    have hbalanced : IsBalanced 0 text := isBalanced_of_closesItself hall
    exact ⟨text, hsame (.inl ⟨text, rfl⟩), .refl hbalanced,
      fun name => ⟨hbalanced, fun _ => isInert_plainArgument name text, fun h => (not_mem_argumentText name h).1⟩,
      fun _ _ => Fragment.noConfusion⟩
  | quoted text =>
    have hstays : staysQuoted text = true := by
      cases flowAt_ok h with
      | quoted _ hclose => exact (closeQuote_ok hclose).1
    have hinert := isInert_inQuotes hstays
    have hsingle (name : String) (h : '\'' ∉ inQuotes text) : '\'' ∉ argumentText name (.quoted text) :=
      (not_mem_argumentText name fun hmem => h (by simp [inQuotes, hmem])).2
    exact ⟨inQuotes text, hsame (.inr ⟨text, rfl⟩), .refl hinert.toIsBalanced,
      fun name => ⟨hinert.toIsBalanced, fun _ => isInert_quotedArgument name hstays, hsingle name⟩,
      fun _ _ => Fragment.noConfusion⟩
  | sequence items =>
    cases flowAt_ok h with
    | sequence hcs hread =>
      obtain ⟨source, hsource, hitems⟩ := items.replaces hread hall
      have hopen : Replaces 1 ['['] ['['] := .refl ⟨rfl, rfl⟩
      exact ⟨'[' :: source, by rw [hcs, hsource]; rfl, (hopen.append hitems).follows rfl⟩
  | mapping pairs =>
    cases flowAt_ok h with
    | mapping hcs hread =>
      obtain ⟨source, hsource, hpairs⟩ := pairs.replaces hread hall
      have hopen : Replaces 1 ['\x7b'] ['\x7b'] := .refl ⟨rfl, rfl⟩
      exact ⟨'\x7b' :: source, by rw [hcs, hsource]; rfl, (hopen.append hpairs).follows rfl⟩
  | kept tag inner =>
    cases flowAt_ok h with
    | @kept rest _ _ hcs hread =>
      obtain ⟨htag, hall⟩ := Bool.and_eq_true_iff.1 hall
      obtain ⟨source, hsource, hinner⟩ := inner.follows hread hall
      have hne := ne_nil_of_staysTagged htag
      rw [staysTagged, Bool.and_eq_true] at htag
      -- The one space behind the tag must not start a comment, so the value may not start with its sign.
      have hhead : inner.fragment.text.head? ≠ some '#' := by
        intro hhead
        rw [hhead] at htag
        exact absurd htag.2 (by simp)
      have hname : Replaces 0 _ _ := .refl (isBalanced_of_closesItself htag.1)
      have hspaced := hinner.replaces.spaced (isInert_gapOf (rest.dropWhile fun c => !isTagEnd c)) hne hhead
      refine ⟨_, ?_, (hname.append hspaced).follows rfl⟩
      rw [hcs, List.append_assoc, List.append_assoc, ← hsource, gapOf_append_afterGap, List.cons_append, List.cons_append,
        List.takeWhile_append_dropWhile]
  | call f argument =>
    cases flowAt_ok h with
    | @call rest _ _ _ hcs hread =>
      obtain ⟨source, hsource, hargument⟩ := argument.follows hread hall
      obtain ⟨front, hfront, hrest⟩ := exists_tag rest
      refine ⟨'!' :: front ++ source, ?_, hargument.applyName (fun c hc => isNameChar_of_mem_longName hc) hfront⟩
      rw [afterGap_afterName] at hsource
      rw [hcs, hrest, hsource, List.cons_append, List.cons_append, List.append_assoc]
  | opened =>
    cases flowAt_ok h with
    | opened _ _ hflow => contradiction
    | announced _ _ hflow => contradiction

theorem Items.replaces (items : Items) {cs left : List Char} (h : itemsAt cs = .ok (items, left))
    (hall : items.all closesItself staysTagged = true) :
    ∃ source, cs = source ++ left ∧ Replaces (-1) source items.text := by
  have hclose : Replaces (-1) [']'] [']'] := .refl ⟨rfl, rfl⟩
  have hcomma : Replaces 0 [','] [','] := .refl ⟨rfl, rfl⟩
  cases items with
  | close gap =>
    cases itemsAt_ok h with
    | close hcs =>
      refine ⟨_, ?_, (replaces_gapOf cs).append hclose⟩
      rw [← List.append_cons, ← hcs, gapOf_append_afterGap]
  | last before value after =>
    cases itemsAt_ok h with
    | @last _ after' _ hread hleft =>
      obtain ⟨source, hsource, hvalue⟩ := value.follows (flowAt_afterGap true cs ▸ hread) hall
      exact ⟨_, (eq_of_afterGap hsource hleft).trans (List.append_cons _ _ _),
        (((replaces_gapOf cs).append hvalue.replaces).append (replaces_gapOf after')).append hclose⟩
  | more before value after rest =>
    cases itemsAt_ok h with
    | @more _ after' _ _ _ hread hleft hrest =>
      obtain ⟨hall, hallRest⟩ := Bool.and_eq_true_iff.1 hall
      obtain ⟨source, hsource, hvalue⟩ := value.follows (flowAt_afterGap true cs ▸ hread) hall
      obtain ⟨others, hothers, hitems⟩ := rest.replaces hrest hallRest
      refine ⟨_, (eq_of_afterGap hsource hleft).trans ?_,
        (((replaces_gapOf cs).append hvalue.replaces).append (replaces_gapOf after')).append (hcomma.append hitems)⟩
      rw [hothers]
      simp only [List.append_assoc]
      rfl

theorem Pairs.replaces (pairs : Pairs) {cs left : List Char} (h : pairsAt cs = .ok (pairs, left))
    (hall : pairs.all closesItself staysTagged = true) :
    ∃ source, cs = source ++ left ∧ Replaces (-1) source pairs.text := by
  have hclose : Replaces (-1) ['\x7d'] ['\x7d'] := .refl ⟨rfl, rfl⟩
  have hcomma : Replaces 0 [','] [','] := .refl ⟨rfl, rfl⟩
  cases pairs with
  | close gap =>
    cases pairsAt_ok h with
    | close hcs =>
      refine ⟨_, ?_, (replaces_gapOf cs).append hclose⟩
      rw [← List.append_cons, ← hcs, gapOf_append_afterGap]
  | last before key gap slot =>
    cases pairsAt_ok h with
    | @last _ afterKey _ _ hkey hslot =>
      obtain ⟨hcloses, hall⟩ := Bool.and_eq_true_iff.1 hall
      have hkeyText : Replaces 0 key key := .refl (isBalanced_of_closesItself hcloses)
      obtain ⟨source, hsource, hvalue⟩ := slot.replaces hslot hall
      exact ⟨_, (eq_of_keyAt hkey hsource).trans (List.append_cons _ _ _),
        ((((replaces_gapOf cs).append hkeyText).append (replaces_gapOf afterKey)).append hvalue).append hclose⟩
  | more before key gap slot rest =>
    cases pairsAt_ok h with
    | @more _ afterKey _ _ _ _ hkey hslot hrest =>
      obtain ⟨hentry, hallRest⟩ := Bool.and_eq_true_iff.1 hall
      obtain ⟨hcloses, hall⟩ := Bool.and_eq_true_iff.1 hentry
      have hkeyText : Replaces 0 key key := .refl (isBalanced_of_closesItself hcloses)
      obtain ⟨source, hsource, hvalue⟩ := slot.replaces hslot hall
      obtain ⟨others, hothers, hpairs⟩ := rest.replaces hrest hallRest
      refine ⟨_, (eq_of_keyAt hkey hsource).trans ?_,
        ((((replaces_gapOf cs).append hkeyText).append (replaces_gapOf afterKey)).append hvalue).append
          (hcomma.append hpairs)⟩
      rw [hothers]
      simp only [List.append_assoc]
      rfl

theorem Slot.replaces (slot : Slot) {cs left : List Char} (h : slotAt cs = .ok (slot, left))
    (hall : slot.all closesItself staysTagged = true) :
    ∃ source, cs = source ++ left ∧ Replaces 0 source slot.text := by
  have hcolon : Replaces 0 [':'] [':'] := .refl ⟨rfl, rfl⟩
  cases slot with
  | bare =>
    cases slotAt_ok h with
    | bare => exact ⟨[], rfl, .refl ⟨rfl, rfl⟩⟩
  | empty gap =>
    cases slotAt_ok h with
    | @empty rest _ _ hleft =>
      refine ⟨_, ?_, hcolon.append (replaces_gapOf rest)⟩
      rw [← hleft, List.append_assoc, gapOf_append_afterGap]
      rfl
  | filled before value final =>
    cases slotAt_ok h with
    | @filled rest after _ _ _ hread hleft =>
      obtain ⟨source, hsource, hvalue⟩ := value.follows (flowAt_afterGap true rest ▸ hread) hall
      refine ⟨_, ?_, (hcolon.append (replaces_gapOf rest)).append hvalue.replaces |>.append (replaces_gapOf after)⟩
      exact congrArg (':' :: ·) (eq_of_afterGap hsource hleft)

end

structure Fragment.SettlesIn (cs left : List Char) (fragment : Fragment) : Prop where
  argument (name : String) : IsInert (argumentText name fragment)
  behind : left = [] ∨ ∃ source, cs = source ++ left ∧ IsBalanced 0 source
  single (h : '\'' ∉ cs) (name : String) : '\'' ∉ argumentText name fragment

theorem Fragment.Follows.settlesIn {cs source left : List Char} {fragment : Fragment} {atStart : Bool}
    (h : fragment.Follows source) (hcs : afterGap cs = source ++ left) (hcomment : HoldsNoComment .outside atStart cs) :
    fragment.SettlesIn cs left := by
  have hsplit : cs = gapOf cs ++ (source ++ left) := by rw [← hcs, gapOf_append_afterGap]
  refine ⟨fun name => ?_, .inr ⟨gapOf cs ++ source, by rw [List.append_assoc, ← hsplit],
    (isInert_gapOf cs).toIsBalanced.append h.replaces.balanced⟩, fun hsingle name => (h.suits name).single fun hmem => ?_⟩
  · rw [hsplit] at hcomment
    have hbehind := hcomment.of_append.2
    rw [closesQuotes_iff.1 (isInert_gapOf cs).closes] at hbehind
    exact (h.suits name).inert hbehind.of_append.1
  · refine hsingle ?_
    rw [hsplit]
    simp [hmem]

theorem Fragment.SettlesIn.callText {front rest left : List Char} {argument : Fragment} (h : argument.SettlesIn rest left)
    {name : String} (hname : ∀ c ∈ name.toList, isNameChar c = true) (hfront : IsInert front) :
    (Fragment.structured (callText name argument)).SettlesIn (front ++ rest) left where
  argument _ := isInert_callText hname (h.argument name)
  behind := h.behind.imp_right fun ⟨source, hsource, hbalanced⟩ =>
    ⟨front ++ source, by rw [hsource, List.append_assoc], hfront.toIsBalanced.append hbalanced⟩
  single hsingle _ := not_mem_callText hname (h.single (fun hmem => hsingle (List.mem_append_right _ hmem)) name)

/-- An argument on a line becomes inert, and nothing is left behind it, or what is left stands outside quotes. -/
theorem Flow.settlesIn (value : Flow) {cs left : List Char} {atStart : Bool}
    (h : flowAt false cs = .ok (value, left)) (hsteady : value.isSteadyOnLine = true) (hend : Text.trimEnd cs = cs)
    (hcomment : HoldsNoComment .outside atStart cs)
    (hsettled : ∀ names indicator, value.fragment ≠ .waiting names indicator) : value.fragment.SettlesIn cs left := by
  -- Within a collection these values are read alike.
  have hinner (hread : flowAt true cs = .ok (value, left)) (hall : value.isSteady = true) :
      value.fragment.SettlesIn cs left := by
    obtain ⟨source, hsource, hfollows⟩ := value.follows hread hall
    exact hfollows.settlesIn hsource hcomment
  cases value with
  | plain text =>
    cases flowAt_ok h with
    | nothing =>
      exact ⟨fun name => isInert_plainArgument name [], .inl rfl, fun _ name => (not_mem_argumentText name (by simp)).1⟩
    | plain =>
      have htrim : plainText false (afterGap cs) = afterGap cs := Text.trimEnd_of_suffix (afterGap_suffix cs) hend
      rw [htrim, List.drop_length]
      exact ⟨fun name => isInert_plainArgument name _, .inl rfl,
        fun hsingle name => (not_mem_argumentText name fun hmem => hsingle ((afterGap_suffix cs).subset hmem)).1⟩
  | quoted text =>
    cases flowAt_ok h with
    | quoted hcs hclose => exact hinner (by rw [← flowAt_afterGap, hcs, flowAt_quote, hclose]) hsteady
  | sequence items =>
    cases flowAt_ok h with
    | sequence hcs hread => exact hinner (by rw [← flowAt_afterGap, hcs, flowAt_bracket, hread]; rfl) hsteady
  | mapping pairs =>
    cases flowAt_ok h with
    | mapping hcs hread => exact hinner (by rw [← flowAt_afterGap, hcs, flowAt_brace, hread]; rfl) hsteady
  | kept tag inner =>
    obtain ⟨hall, hwhole⟩ := Bool.and_eq_true_iff.1 hsteady
    exact hinner ((Flow.kept tag inner).flowAt_true h hend hwhole) hall
  | call f argument =>
    cases flowAt_ok h with
    | @call rest _ _ _ hcs hread =>
      obtain ⟨front, hfront, hrest⟩ := exists_tag rest
      have htag : IsInert (gapOf cs ++ '!' :: front) := (isInert_gapOf cs).append hfront
      have hsplit : cs = gapOf cs ++ '!' :: front ++ afterName rest := by
        rw [List.append_assoc, List.cons_append, ← hrest, ← hcs, gapOf_append_afterGap]
      have hbehind := (hsplit ▸ hcomment).of_append.2
      rw [closesQuotes_iff.1 htag.closes] at hbehind
      have hwaits (names : List String) (indicator : Option (List Char)) :
          argument.fragment ≠ .waiting names indicator := by
        intro hwaiting
        refine hsettled (f.longName :: names) indicator ?_
        rw [Flow.fragment, hwaiting, applyName]
      have hargument := argument.settlesIn hread hsteady (Text.trimEnd_of_suffix (afterName_suffix hcs) hend) hbehind hwaits
      have hname : ∀ c ∈ f.longName.toList, isNameChar c = true := fun c hc => isNameChar_of_mem_longName hc
      have hcall := hargument.callText hname htag
      rw [← hsplit] at hcall
      rw [Flow.fragment]
      generalize argument.fragment = fragment at hcall hwaits
      cases fragment with
      | waiting names indicator => exact absurd rfl (hwaits names indicator)
      | _ => exact hcall
  | opened f indicator => exact absurd rfl (hsettled _ _)

end CloudTemplate.Shorthand
