import CloudTemplate.Proofs.Shorthand.FlowText
import CloudTemplate.Proofs.Shorthand.Reads
/-! Shorthand at the places of values: a value is a call, or there is one at a place within it. What
stands before the place is made up of values without calls. Reading finds every call at a place, unless the
way there leads through a pair among the items of a sequence or something else it takes for plain text. -/
namespace CloudTemplate.Shorthand

inductive Property : List Char → Prop
  | anchor {name : List Char} (hname : ∀ c ∈ name, (Text.isGap c || endsPlain c) = false) (gap : Spacing)
      (hgap : gap.text ≠ []) : Property ('&' :: (name ++ gap.text))
  | tag {name : List Char} (hname : ∀ c ∈ name, (Text.isGap c || endsPlain c) = false) (gap : Spacing)
      (hgap : gap.text ≠ []) : Property ('!' :: (name ++ gap.text))
  | explicit (gap : Spacing) (hgap : gap.text ≠ []) : Property ('?' :: gap.text)

def isParted (key after : List Char) : Bool :=
  !after.isEmpty || key.head?.any fun c => ['"', '[', '\x7b'].contains c

mutual

inductive AnyValue : List Char → Prop
  | plain {cs : List Char} (h : IsPlain cs) (hstays : staysKey cs = true) : AnyValue cs
  | quoted {body : List Char} (h : staysQuoted body = true) : AnyValue (inQuotes body)
  | behind {property cs : List Char} (hproperty : Property property) (h : AnyValue cs) : AnyValue (property ++ cs)
  | sequence {cs : List Char} (h : AnyEntries ']' cs) : AnyValue ('[' :: cs)
  | mapping {cs : List Char} (h : AnyEntries '\x7d' cs) : AnyValue ('\x7b' :: cs)

inductive AnyEntries : Char → List Char → Prop
  | close {mark : Char} (gap : Spacing) : AnyEntries mark (gap.text ++ [mark])
  | last {mark : Char} (before : Spacing) {cs : List Char} (h : AnyEntry cs) :
      AnyEntries mark (before.text ++ (cs ++ [mark]))
  | more {mark : Char} (before : Spacing) {cs : List Char} (h : AnyEntry cs) {rest : List Char}
      (hrest : AnyEntries mark rest) : AnyEntries mark (before.text ++ (cs ++ ',' :: rest))

inductive AnyEntry : List Char → Prop
  | value {cs : List Char} (h : AnyValue cs) (after : Spacing) : AnyEntry (cs ++ after.text)
  | pair {key : List Char} (hkey : AnyValue key) (gap after : Spacing) (hparted : isParted key after.text = true)
      {cs : List Char} (h : AnyValue cs) (final : Spacing) :
      AnyEntry (key ++ (gap.text ++ ':' :: (after.text ++ (cs ++ final.text))))

end

inductive Way where
  | read
  | missed

mutual

inductive FlowCall : Way → List Char → Prop
  | here (f : Intrinsic) (rest : List Char) : FlowCall .read ('!' :: (f.tag.toList ++ rest))
  | tagged {way : Way} {name cs : List Char} (hname : ∀ c ∈ name, isTagEnd c = false) (gap : Spacing)
      (h : FlowCall way cs) : FlowCall way ('!' :: '!' :: (name ++ ' ' :: (gap.text ++ cs)))
  | behind {way : Way} {property cs : List Char} (hproperty : Property property) (h : FlowCall way cs) :
      FlowCall .missed (property ++ cs)
  | sequence {way : Way} {cs : List Char} (h : ItemCall way cs) : FlowCall way ('[' :: cs)
  | mapping {way : Way} {cs : List Char} (h : PairCall way cs) : FlowCall way ('\x7b' :: cs)

inductive ItemCall : Way → List Char → Prop
  | item {way : Way} (before : Spacing) {cs : List Char} (h : FlowCall way cs) : ItemCall way (before.text ++ cs)
  | pair {way : Way} (before : Spacing) {cs : List Char} (h : EntryCall way cs) : ItemCall .missed (before.text ++ cs)
  | next {way : Way} (before : Spacing) {cs : List Char} (h : FlowText true cs) (after : Spacing) {rest : List Char}
      (hrest : ItemCall way rest) : ItemCall way (before.text ++ (cs ++ (after.text ++ ',' :: rest)))
  | past {way : Way} (before : Spacing) {cs : List Char} (h : AnyEntry cs) {rest : List Char}
      (hrest : ItemCall way rest) : ItemCall .missed (before.text ++ (cs ++ ',' :: rest))

inductive PairCall : Way → List Char → Prop
  | value {way : Way} (before : Spacing) {cs : List Char} (h : EntryCall way cs) : PairCall way (before.text ++ cs)
  | next {way : Way} (before : Spacing) {cs : List Char} (h : EntryText false cs) {rest : List Char}
      (hrest : PairCall way rest) : PairCall way (before.text ++ (cs ++ ',' :: rest))
  | past {way : Way} (before : Spacing) {cs : List Char} (h : AnyEntry cs) {rest : List Char}
      (hrest : PairCall way rest) : PairCall .missed (before.text ++ (cs ++ ',' :: rest))

inductive EntryCall : Way → List Char → Prop
  | pair {way : Way} {key gap : List Char} (hkey : KeyText key gap) (after : Spacing)
      (happart : isApart key after.text = true) {cs : List Char} (h : FlowCall way cs) :
      EntryCall way (key ++ (gap ++ ':' :: (after.text ++ cs)))
  | loose {way : Way} {key : List Char} (hkey : AnyValue key) (gap after : Spacing)
      (hparted : isParted key after.text = true) {cs : List Char} (h : FlowCall way cs) :
      EntryCall .missed (key ++ (gap.text ++ ':' :: (after.text ++ cs)))

end

/-- Whether a collection or a call starts a text, behind tags that are kept. -/
inductive Opens : List Char → Prop
  | value {cs : List Char} (h : opensFlow cs = true) (htag : ¬['!', '!'] <+: cs) : Opens cs
  | tagged {name cs : List Char} (hname : ∀ c ∈ name, isTagEnd c = false) (gap : Spacing) (h : Opens cs) :
      Opens ('!' :: '!' :: (name ++ ' ' :: (gap.text ++ cs)))

inductive Token where
  | between
  | plain
  | property
  | quoted
  | escaped
  | comment
  deriving DecidableEq

namespace Token

def isBreak (c : Char) : Bool := Text.isGap c || c == '\n'

def separates (c : Char) : Bool := ['[', ']', '\x7b', '\x7d', ','].contains c

def next (t : Token) (c : Char) (rest : List Char) : Token :=
  match t with
  | .comment => if c = '\n' then .between else .comment
  | .quoted => if c = '"' then .between else if c = '\\' then .escaped else .quoted
  | .escaped => .quoted
  | .plain =>
    if separates c || (c == ':' && rest.head?.all fun d => isBreak d || separates d) then .between else .plain
  | .property => if separates c || isBreak c then .between else .property
  | .between =>
    if separates c || isBreak c || c == ':' || c == '?' then .between
    else if c = '"' then .quoted
    else if c = '!' || c = '&' then .property
    else .plain

end Token

/-- A text with spaces for line feeds and no comments. A number sign starts one behind a blank, outside quoted scalars. -/
def unwrapFrom (t : Token) (behindBlank : Bool) : List Char → List Char
  | [] => []
  | c :: cs =>
    if t = .comment then
      if c = '\n' then ' ' :: unwrapFrom .between true cs else unwrapFrom .comment true cs
    else if c = '#' ∧ behindBlank = true ∧ t ≠ .quoted ∧ t ≠ .escaped then unwrapFrom .comment true cs
    else (if c = '\n' then ' ' else c) :: unwrapFrom (t.next c cs) (Token.isBreak c) cs

def unwrapped (cs : List Char) : List Char := unwrapFrom .between true cs

theorem Token.next_ne_comment {t : Token} (h : t ≠ .comment) (c : Char) (rest : List Char) : t.next c rest ≠ .comment := by
  cases t with
  | comment => contradiction
  | escaped => exact nofun
  | quoted | plain | property | between =>
    rw [Token.next]
    split_ifs <;> exact nofun

theorem unwrapFrom_eq {cs : List Char} (hbreak : '\n' ∉ cs) (hsharp : '#' ∉ cs) {t : Token} (h : t ≠ .comment)
    (behindBlank : Bool) : unwrapFrom t behindBlank cs = cs := by
  induction cs generalizing t behindBlank with
  | nil => rfl
  | cons c cs ih =>
    obtain ⟨hc, hbreak⟩ := List.ne_and_not_mem_of_not_mem_cons hbreak
    obtain ⟨hc', hsharp⟩ := List.ne_and_not_mem_of_not_mem_cons hsharp
    rw [unwrapFrom, if_neg h, if_neg fun hstart => hc' hstart.1.symm, if_neg hc.symm,
      ih hbreak hsharp (Token.next_ne_comment h c cs)]

/-- One line without a number sign stays as it is. -/
theorem unwrapped_eq {cs : List Char} (hbreak : '\n' ∉ cs) (hsharp : '#' ∉ cs) : unwrapped cs = cs :=
  unwrapFrom_eq hbreak hsharp (t := .between) nofun true

example : unwrapped "[5\" x, # ]\n  a, \"# b\", !Ref c]".toList = "[5\" x,    a, \"# b\", !Ref c]".toList := by decide

theorem Property.length_pos {property : List Char} (h : Property property) : 0 < property.length := by
  cases h <;> simp

theorem FlowCall.opensFlow {cs : List Char} (h : FlowCall .read cs) : opensFlow cs = true := by
  cases h <;> rfl

theorem ne_nil_of_opensFlow {cs : List Char} (h : opensFlow cs = true) : cs ≠ [] := by
  rintro rfl
  contradiction

theorem isGap_of_opensFlow {c : Char} {cs : List Char} (h : opensFlow (c :: cs) = true) : Text.isGap c = false := by
  simp only [opensFlow, Bool.or_eq_true, beq_iff_eq] at h
  obtain (rfl | rfl) | rfl := h <;> rfl

theorem afterGap_of_opensFlow {cs : List Char} (h : opensFlow cs = true) : afterGap cs = cs := by
  cases cs with
  | nil => rfl
  | cons c cs => exact afterGap_cons (isGap_of_opensFlow h) cs

theorem FlowCall.afterGap {cs : List Char} (h : FlowCall .read cs) : afterGap cs = cs :=
  afterGap_of_opensFlow h.opensFlow

/-- A pair starts with no spacing and does not end its mapping. -/
theorem EntryCall.afterGap {cs : List Char} (h : EntryCall .read cs) : afterGap cs = cs := by
  cases h with
  | pair hkey after => exact afterGap_of_head fun c hc => (hkey.isKey.starts_append (d := ':') (by decide) _ c hc).1

theorem EntryCall.ne_close {cs rest : List Char} (h : EntryCall .read cs) : cs ≠ '\x7d' :: rest := by
  cases h with
  | pair hkey after _ h =>
    intro hclose
    exact (hkey.isKey.starts_append (d := ':') (by decide) (after.text ++ _) '\x7d' (by rw [hclose]; rfl)).2 rfl

theorem head_tag_ne (f : Intrinsic) (rest : List Char) : (f.tag.toList ++ rest).head? ≠ some '!' := by
  cases f <;> exact fun h => absurd (Option.some.inj h) (by decide)

theorem dropWhile_name {name : List Char} (hname : ∀ c ∈ name, isTagEnd c = false) (cs : List Char) :
    (name ++ ' ' :: cs).dropWhile (fun c => !isTagEnd c) = ' ' :: cs := by
  rw [List.dropWhile_append_of_pos fun c hc => by simp [hname c hc], List.dropWhile_cons_of_neg (by decide)]

/-- What stands behind the name of a tag, by the whole text. -/
theorem eq_of_tagged {name name' cs cs' : List Char} (hname : ∀ c ∈ name, isTagEnd c = false)
    (hname' : ∀ c ∈ name', isTagEnd c = false)
    (h : '!' :: '!' :: (name ++ ' ' :: cs) = '!' :: '!' :: (name' ++ ' ' :: cs')) : cs = cs' := by
  have hrest := congrArg (List.dropWhile fun c => !isTagEnd c) (List.cons.inj (List.cons.inj h).2).2
  rw [dropWhile_name hname, dropWhile_name hname'] at hrest
  exact (List.cons.inj hrest).2

/-- A call behind a tag that is kept. -/
theorem FlowCall.of_tagged {name cs : List Char} (hname : ∀ c ∈ name, isTagEnd c = false)
    (h : FlowCall .read ('!' :: '!' :: (name ++ ' ' :: cs))) : FlowCall .read (Shorthand.afterGap cs) := by
  generalize htext : '!' :: '!' :: (name ++ ' ' :: cs) = text at h
  cases h with
  | here f rest => exact absurd (by rw [← (List.cons.inj htext).2]; rfl) (head_tag_ne f rest)
  | tagged hname' gap h =>
    rw [eq_of_tagged hname hname' htext, afterGap_append gap.isGap, h.afterGap]
    exact h
  | sequence => simp at htext
  | mapping => simp at htext

theorem Opens.opensFlow {cs : List Char} (h : Opens cs) : opensFlow cs = true := by
  cases h with
  | value h => exact h
  | tagged => rfl

theorem Opens.of_tagged {name cs : List Char} (hname : ∀ c ∈ name, isTagEnd c = false)
    (h : Opens ('!' :: '!' :: (name ++ ' ' :: cs))) : Opens (afterGap cs) := by
  generalize htext : '!' :: '!' :: (name ++ ' ' :: cs) = text at h
  cases h with
  | value _ htag => exact absurd ⟨name ++ ' ' :: cs, htext⟩ htag
  | tagged hname' gap h =>
    rw [eq_of_tagged hname hname' htext, afterGap_append gap.isGap, afterGap_of_opensFlow h.opensFlow]
    exact h

mutual

theorem FlowCall.append {cs : List Char} (h : FlowCall .read cs) (rest : List Char) : FlowCall .read (cs ++ rest) := by
  cases h with
  | here f tail =>
    rw [List.cons_append, List.append_assoc]
    exact .here f _
  | tagged hname gap h =>
    simp only [List.append_assoc, List.cons_append]
    exact .tagged hname gap (h.append rest)
  | sequence h => exact .sequence (h.append rest)
  | mapping h => exact .mapping (h.append rest)
termination_by 2 * cs.length
decreasing_by all_goals (subst_vars; simp only [List.length_append, List.length_cons]; omega)

theorem ItemCall.append {cs : List Char} (h : ItemCall .read cs) (rest : List Char) : ItemCall .read (cs ++ rest) := by
  cases h with
  | item before h =>
    rw [List.append_assoc]
    exact .item before (h.append rest)
  | next before h after hrest =>
    simp only [List.append_assoc, List.cons_append]
    exact .next before h after (hrest.append rest)
termination_by 2 * cs.length + 1
decreasing_by all_goals (subst_vars; simp only [List.length_append, List.length_cons]; omega)

theorem PairCall.append {cs : List Char} (h : PairCall .read cs) (rest : List Char) : PairCall .read (cs ++ rest) := by
  cases h with
  | value before h =>
    rw [List.append_assoc]
    exact .value before (h.append rest)
  | next before h hrest =>
    simp only [List.append_assoc, List.cons_append]
    exact .next before h (hrest.append rest)
termination_by 2 * cs.length + 1
decreasing_by all_goals (subst_vars; simp only [List.length_append, List.length_cons]; omega)

theorem EntryCall.append {cs : List Char} (h : EntryCall .read cs) (rest : List Char) :
    EntryCall .read (cs ++ rest) := by
  cases h with
  | pair hkey after happart h =>
    simp only [List.append_assoc, List.cons_append]
    exact .pair hkey after happart (h.append rest)
termination_by 2 * cs.length
decreasing_by all_goals (subst_vars; simp only [List.length_append, List.length_cons]; omega)

end

mutual

theorem FlowCall.mem_mark {way : Way} {cs : List Char} (h : FlowCall way cs) : '!' ∈ cs := by
  cases h with
  | here => exact List.mem_cons_self
  | tagged => exact List.mem_cons_self
  | behind hproperty h => exact List.mem_append_right _ h.mem_mark
  | sequence h => exact List.mem_cons_of_mem _ h.mem_mark
  | mapping h => exact List.mem_cons_of_mem _ h.mem_mark
termination_by 2 * cs.length
decreasing_by
  · have hlength := hproperty.length_pos
    simp only [List.length_append]
    omega
  all_goals (simp only [List.length_cons]; omega)

theorem ItemCall.mem_mark {way : Way} {cs : List Char} (h : ItemCall way cs) : '!' ∈ cs := by
  cases h with
  | item before h => simp [h.mem_mark]
  | pair before h => simp [h.mem_mark]
  | next before h after hrest => simp [hrest.mem_mark]
  | past before h hrest => simp [hrest.mem_mark]
termination_by 2 * cs.length + 1
decreasing_by all_goals (subst_vars; simp only [List.length_append, List.length_cons]; omega)

theorem PairCall.mem_mark {way : Way} {cs : List Char} (h : PairCall way cs) : '!' ∈ cs := by
  cases h with
  | value before h => simp [h.mem_mark]
  | next before h hrest => simp [hrest.mem_mark]
  | past before h hrest => simp [hrest.mem_mark]
termination_by 2 * cs.length + 1
decreasing_by all_goals (subst_vars; simp only [List.length_append, List.length_cons]; omega)

theorem EntryCall.mem_mark {way : Way} {cs : List Char} (h : EntryCall way cs) : '!' ∈ cs := by
  cases h with
  | pair hkey after happart h => simp [h.mem_mark]
  | loose hkey gap after hparted h => simp [h.mem_mark]
termination_by 2 * cs.length
decreasing_by all_goals (subst_vars; simp only [List.length_append, List.length_cons]; omega)

end

mutual

/-- A value in which a call stands at a place is not read without calls. -/
theorem FlowCall.isCallFree_eq_false {cs : List Char} (h : FlowCall .read cs) {inFlow : Bool} :
    ∀ value left, flowAt inFlow cs = .ok (value, left) → value.isCallFree true = false := by
  cases h with
  | here f rest =>
    intro value left hread
    have hcs : afterGap ('!' :: (f.tag.toList ++ rest)) = '!' :: (f.tag.toList ++ rest) := afterGap_cons rfl _
    cases flowAt_ok hread with
    | nothing hgap => simp [hcs] at hgap
    | plain _ hplain => rw [hcs] at hplain; contradiction
    | quoted hgap => rw [hcs] at hgap; simp at hgap
    | sequence hgap => rw [hcs] at hgap; simp at hgap
    | mapping hgap => rw [hcs] at hgap; simp at hgap
    | kept hgap =>
      rw [hcs] at hgap
      exact absurd (by rw [(List.cons.inj hgap).2]; rfl) (head_tag_ne f rest)
    | call => rfl
    | opened => rfl
    | announced => rfl
  | @tagged _ name cs hname gap h =>
    intro value left hread
    have hgap : flowAt inFlow (gap.text ++ cs) = flowAt inFlow cs := by
      rw [← flowAt_afterGap, afterGap_append gap.isGap, h.afterGap]
    rw [flowAt_tagged hname, hgap] at hread
    obtain ⟨inner, hinner, rfl⟩ := mapRead_ok hread
    have hfree : inner.isCallFree true = false := h.isCallFree_eq_false _ _ hinner
    exact hfree
  | sequence h =>
    intro value left hread
    rw [flowAt_bracket] at hread
    obtain ⟨items, hitems, rfl⟩ := mapRead_ok hread
    have hfree : items.isCallFree true = false := h.isCallFree_eq_false _ _ hitems
    exact hfree
  | mapping h =>
    intro value left hread
    rw [flowAt_brace] at hread
    obtain ⟨pairs, hpairs, rfl⟩ := mapRead_ok hread
    have hfree : pairs.isCallFree true = false := h.isCallFree_eq_false _ _ hpairs
    exact hfree
termination_by 2 * cs.length
decreasing_by all_goals (subst_vars; simp only [List.length_append, List.length_cons]; omega)

theorem ItemCall.isCallFree_eq_false {cs : List Char} (h : ItemCall .read cs) :
    ∀ items left, itemsAt cs = .ok (items, left) → items.isCallFree true = false := by
  cases h with
  | @item _ before cs h =>
    intro items left hread
    have hcs : afterGap (before.text ++ cs) = cs := by rw [afterGap_append before.isGap, h.afterGap]
    cases itemsAt_ok hread with
    | close hclose =>
      have hopens := h.opensFlow
      rw [← hcs, hclose] at hopens
      contradiction
    | last hvalue =>
      rw [hcs] at hvalue
      exact h.isCallFree_eq_false _ _ hvalue
    | more hvalue =>
      rw [hcs] at hvalue
      simp [Items.isCallFree, h.isCallFree_eq_false _ _ hvalue]
  | @next _ before cs h after rest hrest =>
    intro items left hread
    obtain ⟨value, left', hvalue, hleft, -⟩ := h.readsFree.reads after (d := ',') rfl rest
    obtain ⟨gap, gap', hmore⟩ := h.readsFree.itemsAt_of_flowAt before after rfl hvalue hleft fun _ => by decide
    rw [hmore, if_pos rfl] at hread
    obtain ⟨items, hitems, rfl⟩ := mapRead_ok hread
    simp [Items.isCallFree, hrest.isCallFree_eq_false _ _ hitems]
termination_by 2 * cs.length + 1
decreasing_by all_goals (subst_vars; simp only [List.length_append, List.length_cons]; omega)

theorem PairCall.isCallFree_eq_false {cs : List Char} (h : PairCall .read cs) :
    ∀ pairs left, pairsAt cs = .ok (pairs, left) → pairs.isCallFree true = false := by
  cases h with
  | @value _ before cs h =>
    intro pairs left hread
    have hcs : afterGap (before.text ++ cs) = cs := by rw [afterGap_append before.isGap, h.afterGap]
    cases pairsAt_ok hread with
    | close hclose => exact absurd (hcs ▸ hclose) h.ne_close
    | last hkey hslot =>
      rw [hcs] at hkey
      exact h.isCallFree_eq_false _ _ hkey _ _ hslot
    | more hkey hslot =>
      rw [hcs] at hkey
      simp [Pairs.isCallFree, h.isCallFree_eq_false _ _ hkey _ _ hslot]
  | @next _ before cs h rest hrest =>
    intro pairs left hread
    obtain ⟨key, afterKey, slot, hkey, hslot, -⟩ := h.entryFree.reads (.inl rfl) rest
    obtain ⟨gap, gap', hmore⟩ := h.entryFree.pairsAt_of_slotAt before rfl hkey hslot fun _ => by decide
    rw [hmore, if_pos rfl] at hread
    obtain ⟨pairs, hpairs, rfl⟩ := mapRead_ok hread
    simp [Pairs.isCallFree, hrest.isCallFree_eq_false _ _ hpairs]
termination_by 2 * cs.length + 1
decreasing_by all_goals (subst_vars; simp only [List.length_append, List.length_cons]; omega)

theorem EntryCall.isCallFree_eq_false {cs : List Char} (h : EntryCall .read cs) :
    ∀ key afterKey, keyAt cs = .ok (key, afterKey) → ∀ slot left, slotAt (afterGap afterKey) = .ok (slot, left) →
      slot.isCallFree true = false := by
  cases h with
  | @pair _ key gap hkey after happart cs h =>
    intro key' afterKey hkeyAt slot left hread
    rw [hkey.isKey.keyAt_colon happart cs] at hkeyAt
    cases hkeyAt
    have hvalueAt : afterGap (after.text ++ cs) = cs := by rw [afterGap_append after.isGap, h.afterGap]
    rw [afterGap_append_cons hkey.isKey.isGap rfl] at hread
    cases slotAt_ok hread with
    | bare hcolon => simp at hcolon
    | empty hends =>
      have hopens := h.opensFlow
      rw [hvalueAt] at hends
      cases cs with
      | nil => contradiction
      | cons c cs =>
        simp only [opensFlow, Bool.or_eq_true, beq_iff_eq] at hopens
        obtain (rfl | rfl) | rfl := hopens <;> contradiction
    | filled _ hvalue =>
      rw [hvalueAt] at hvalue
      exact h.isCallFree_eq_false _ _ hvalue
termination_by 2 * cs.length
decreasing_by all_goals (subst_vars; simp only [List.length_append, List.length_cons]; omega)

end

inductive Kept : List Char → Prop
  | scalar {name cs : List Char} (hname : ∀ c ∈ name, isTagEnd c = false) (h : opensFlow (afterGap cs) = false) :
      Kept ('!' :: '!' :: (name ++ ' ' :: cs))
  | tagged {name cs : List Char} (hname : ∀ c ∈ name, isTagEnd c = false) (h : Kept cs) :
      Kept ('!' :: '!' :: (name ++ ' ' :: cs))
  | call {name cs : List Char} (hname : staysQuoted name = true) (h : Kept cs) :
      Kept ('\x7b' :: ' ' :: (inQuotes name ++ ' ' :: ':' :: ' ' :: cs))

namespace Kept

variable {cs : List Char}

theorem opensFlow (h : Kept cs) : opensFlow cs = true := by
  cases h <;> rfl

theorem afterGap (h : Kept cs) : afterGap cs = cs := afterGap_of_opensFlow h.opensFlow

theorem endsSlot (h : Kept cs) : endsSlot cs = false := by
  cases h <;> rfl

/-- The pair of a call, as it is read. -/
theorem keyAt_name {name : List Char} (hname : staysQuoted name = true) (cs : List Char) :
    keyAt (inQuotes name ++ ' ' :: cs) = .ok (inQuotes name, ' ' :: cs) := by
  have htext : inQuotes name ++ ' ' :: cs = '"' :: (name ++ '"' :: ' ' :: cs) := by simp [inQuotes]
  have hclose := closeQuote_append ⟨name, hname⟩ (' ' :: cs)
  rw [htext, keyAt_quote, hclose]
  rfl

theorem slotAt_colon (h : Kept cs) {slot : Slot} {left : List Char}
    (hread : slotAt (':' :: ' ' :: cs) = .ok (slot, left)) :
    ∃ gap value after gap', flowAt true cs = .ok (value, after) ∧ slot = .filled gap value gap' := by
  have hgap : Shorthand.afterGap (' ' :: cs) = cs := (afterGap_append oneSpace.isGap cs).trans h.afterGap
  cases slotAt_ok hread with
  | bare hcolon => simp at hcolon
  | empty hends => rw [hgap, h.endsSlot] at hends; contradiction
  | filled _ hvalue => exact ⟨_, _, _, _, hgap ▸ hvalue, rfl⟩

/-- The tag shows in what is read. -/
theorem isCallFree_eq_false (h : Kept cs) :
    ∀ value left, flowAt true cs = .ok (value, left) → value.isCallFree false = false := by
  induction h with
  | scalar hname =>
    intro value left hread
    rw [flowAt_tagged hname] at hread
    obtain ⟨inner, -, rfl⟩ := mapRead_ok hread
    rfl
  | tagged hname =>
    intro value left hread
    rw [flowAt_tagged hname] at hread
    obtain ⟨inner, -, rfl⟩ := mapRead_ok hread
    rfl
  | @call name cs hname h ih =>
    intro value left hread
    have hcs : Shorthand.afterGap (' ' :: (inQuotes name ++ ' ' :: ':' :: ' ' :: cs)) =
        inQuotes name ++ ' ' :: ':' :: ' ' :: cs := rfl
    have hkey := keyAt_name hname (':' :: ' ' :: cs)
    have hslot {slot : Slot} {left : List Char} (hread : slotAt (':' :: ' ' :: cs) = .ok (slot, left)) :
        slot.isCallFree false = false := by
      obtain ⟨gap, value, after, gap', hvalue, rfl⟩ := h.slotAt_colon hread
      exact ih value after hvalue
    rw [flowAt_brace] at hread
    obtain ⟨pairs, hpairs, rfl⟩ := mapRead_ok hread
    have hfree : pairs.isCallFree false = false := by
      cases pairsAt_ok hpairs with
      | close hclose =>
        rw [hcs] at hclose
        simp [inQuotes] at hclose
      | last hkey' hslot' =>
        rw [hcs, hkey] at hkey'
        cases hkey'
        exact hslot hslot'
      | more hkey' hslot' =>
        rw [hcs, hkey] at hkey'
        cases hkey'
        simp [Pairs.isCallFree, hslot hslot']
    exact hfree

theorem flowCall_of_entryCall (h : Kept cs) {name : List Char} (hname : staysQuoted name = true)
    (hcall : EntryCall .read (inQuotes name ++ ' ' :: ':' :: ' ' :: cs)) : FlowCall .read cs := by
  have hread := keyAt_name hname (':' :: ' ' :: cs)
  generalize inQuotes name ++ ' ' :: ':' :: ' ' :: cs = text at hcall hread
  cases hcall with
  | @pair _ key gap hkey after happart cs' h' =>
    rw [hkey.isKey.keyAt_colon happart cs'] at hread
    have hbehind : Shorthand.afterGap (gap ++ ':' :: (after.text ++ cs')) = ':' :: ' ' :: cs :=
      congrArg Shorthand.afterGap (Prod.mk.inj (Except.ok.inj hread)).2
    rw [afterGap_append_cons hkey.isKey.isGap rfl] at hbehind
    have hvalue := congrArg Shorthand.afterGap (List.cons.inj hbehind).2
    rw [afterGap_append after.isGap, h'.afterGap] at hvalue
    have hcs : cs' = cs := hvalue.trans h.afterGap
    exact hcs ▸ h'

theorem not_flowCall (h : Kept cs) : ¬FlowCall .read cs := by
  induction h with
  | scalar hname hopens =>
    intro hcall
    have hinner := hcall.of_tagged hname
    rw [hinner.opensFlow] at hopens
    contradiction
  | tagged hname h ih =>
    intro hcall
    have hinner := hcall.of_tagged hname
    rw [h.afterGap] at hinner
    exact ih hinner
  | @call name cs hname h ih =>
    intro hcall
    have hkey := keyAt_name hname (':' :: ' ' :: cs)
    have hbrace : PairCall .read (' ' :: (inQuotes name ++ ' ' :: ':' :: ' ' :: cs)) := by
      cases hcall with
      | mapping h => exact h
    generalize htext : ' ' :: (inQuotes name ++ ' ' :: ':' :: ' ' :: cs) = text at hbrace
    have hstart : Shorthand.afterGap text = inQuotes name ++ ' ' :: ':' :: ' ' :: cs := by
      rw [← htext]
      rfl
    cases hbrace with
    | @value _ before entry hentry =>
      rw [afterGap_append before.isGap, hentry.afterGap] at hstart
      rw [hstart] at hentry
      exact ih (h.flowCall_of_entryCall hname hentry)
    | @next _ before entry hentry rest hrest =>
      rw [afterGap_append before.isGap, hentry.entryFree.afterGap_append rfl] at hstart
      obtain ⟨key, afterKey, slot, hread, hslot, hfree⟩ := hentry.entryFree.reads (.inl rfl) rest
      rw [hstart, hkey] at hread
      cases hread
      obtain ⟨gap, value, after, gap', hvalue, rfl⟩ := h.slotAt_colon hslot
      have hkept := h.isCallFree_eq_false value after hvalue
      rw [Slot.isCallFree, hkept] at hfree
      contradiction

end Kept

end CloudTemplate.Shorthand
