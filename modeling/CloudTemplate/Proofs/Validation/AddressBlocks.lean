import CloudTemplate.Proofs.Validation.Mirroring
import Mathlib.Data.List.TakeWhile
/-! Texts that are blocks of network addresses. What is taken for a block is what the grammar of blocks describes, and
nothing else. It makes no difference if the digits are matched by a pattern before they are read, and the pattern admits
digits of other scripts as well: those are not read. -/
namespace CloudTemplate.Cidr

structure Field where
  width : Nat
  limit : Nat
  capacity : Nat
  limit_le : limit ≤ capacity

def Field.octet : Field := ⟨3, 255, 65535, by decide⟩

def Field.bits : Field := ⟨2, 32, 255, by decide⟩

structure IsNumber (field : Field) (run : List Char) : Prop where
  ne_nil : run ≠ []
  length_le : run.length ≤ field.width
  isDigit : ∀ c ∈ run, c.isDigit = true
  value_le : Number.ofDigits run ≤ field.limit

structure Parts where
  first : List Char
  second : List Char
  third : List Char
  fourth : List Char
  bits : List Char

namespace Parts

def text (parts : Parts) : List Char :=
  parts.first ++ '.' :: (parts.second ++ '.' :: (parts.third ++ '.' :: (parts.fourth ++ '/' :: parts.bits)))

structure All (p : Field → List Char → Prop) (parts : Parts) : Prop where
  first : p .octet parts.first
  second : p .octet parts.second
  third : p .octet parts.third
  fourth : p .octet parts.fourth
  bits : p .bits parts.bits

theorem All.imp {p q : Field → List Char → Prop} (h : ∀ field run, p field run → q field run) {parts : Parts}
    (hparts : parts.All p) : parts.All q :=
  ⟨h _ _ hparts.first, h _ _ hparts.second, h _ _ hparts.third, h _ _ hparts.fourth, h _ _ hparts.bits⟩

theorem All.and {p q : Field → List Char → Prop} {parts : Parts} (hp : parts.All p) (hq : parts.All q) :
    parts.All fun field run => p field run ∧ q field run :=
  ⟨⟨hp.first, hq.first⟩, ⟨hp.second, hq.second⟩, ⟨hp.third, hq.third⟩, ⟨hp.fourth, hq.fourth⟩,
    ⟨hp.bits, hq.bits⟩⟩

end Parts

def IsBlockText (cs : List Char) : Prop := ∃ parts : Parts, parts.text = cs ∧ parts.All IsNumber

theorem takeChar_eq_some_iff {c : Char} {cs rest : List Char} : takeChar c cs = some rest ↔ cs = c :: rest := by
  cases cs with
  | nil => simp [takeChar]
  | cons d cs =>
    rw [takeChar]
    split
    · rename_i h
      rw [h, Option.some_inj, List.cons_inj_right]
    · rename_i h
      simp [h]

theorem takeNumber_append {field : Field} {run : List Char} (h : IsNumber field run) {rest : List Char}
    (hrest : ∀ c ∈ rest.head?, c.isDigit = false) :
    takeNumber field.width field.limit (run ++ rest) = some rest := by
  have hafter : rest.takeWhile Char.isDigit = [] := by
    cases rest with
    | nil => rfl
    | cons c rest => exact List.takeWhile_cons_of_neg (by simp [hrest c rfl])
  have hrun : (run ++ rest).takeWhile Char.isDigit = run := by
    rw [List.takeWhile_append_of_pos h.isDigit, hafter, List.append_nil]
  have hne : run.isEmpty = false := by simpa using h.ne_nil
  simp [takeNumber, hrun, hne, h.length_le, h.value_le]

theorem exists_of_takeNumber (field : Field) {cs rest : List Char}
    (h : takeNumber field.width field.limit cs = some rest) : ∃ run, IsNumber field run ∧ cs = run ++ rest := by
  simp only [takeNumber] at h
  split at h
  · rename_i hrun
    simp only [Bool.and_eq_true, Bool.not_eq_true', List.isEmpty_eq_false_iff, decide_eq_true_eq] at hrun
    obtain ⟨⟨hne, hlength⟩, hvalue⟩ := hrun
    refine ⟨cs.takeWhile Char.isDigit, ⟨hne, hlength, fun c hc => List.mem_takeWhile_imp hc, hvalue⟩, ?_⟩
    obtain rfl := Option.some_inj.1 h
    exact List.prefix_iff_eq_append.1 (List.takeWhile_prefix _) |>.symm
  · contradiction

/-- The whole of a text is taken off exactly if it is a block. -/
theorem isBlock_iff (s : String) : isBlock s = true ↔ IsBlockText s.toList := by
  rw [isBlock, beq_iff_eq]
  constructor
  · intro h
    simp only [takeBlock, Option.bind_eq_bind, Option.bind_eq_some_iff, takeChar_eq_some_iff] at h
    obtain ⟨_, hfirst, _, rfl, _, hsecond, _, rfl, _, hthird, _, rfl, _, hfourth, _, rfl, hbits⟩ := h
    obtain ⟨first, hfirst', htext⟩ := exists_of_takeNumber .octet hfirst
    obtain ⟨second, hsecond', rfl⟩ := exists_of_takeNumber .octet hsecond
    obtain ⟨third, hthird', rfl⟩ := exists_of_takeNumber .octet hthird
    obtain ⟨fourth, hfourth', rfl⟩ := exists_of_takeNumber .octet hfourth
    obtain ⟨bits, hbits', rfl⟩ := exists_of_takeNumber .bits hbits
    rw [List.append_nil] at htext
    exact ⟨⟨first, second, third, fourth, bits⟩, htext.symm, ⟨hfirst', hsecond', hthird', hfourth', hbits'⟩⟩
  · rintro ⟨parts, htext, hparts⟩
    have hmark (mark : Char) (hmark : mark.isDigit = false) (rest : List Char) :
        ∀ c ∈ (mark :: rest).head?, c.isDigit = false := by simpa using hmark
    have hfirst := takeNumber_append hparts.first (hmark '.' rfl (parts.second ++ '.' :: (parts.third ++ '.' ::
      (parts.fourth ++ '/' :: parts.bits))))
    have hsecond := takeNumber_append hparts.second (hmark '.' rfl (parts.third ++ '.' :: (parts.fourth ++ '/' :: parts.bits)))
    have hthird := takeNumber_append hparts.third (hmark '.' rfl (parts.fourth ++ '/' :: parts.bits))
    have hfourth := takeNumber_append hparts.fourth (hmark '/' rfl parts.bits)
    have hbits := @takeNumber_append _ _ hparts.bits [] (by simp)
    rw [List.append_nil] at hbits
    simp only [Field.octet, Field.bits] at hfirst hsecond hthird hfourth hbits
    rw [← htext, Parts.text]
    simp [takeBlock, hfirst, hsecond, hthird, hfourth, hbits, takeChar]

def readDigits (capacity : Nat) (n : Nat) : List Char → Option Nat
  | [] => some n
  | c :: cs =>
    if c.isDigit then
      let longer := n * 10 + Number.digitValue c
      if longer ≤ capacity then readDigits capacity longer cs else none
    else none

def readNumber (capacity : Nat) : List Char → Option Nat
  | [] => none
  | '+' :: c :: cs => readDigits capacity 0 (c :: cs)
  | cs => readDigits capacity 0 cs

/-- A run that the pattern of a field admits: so many characters that are decimal digits in some script. -/
structure Admits (isDecimal : Char → Bool) (field : Field) (run : List Char) : Prop where
  ne_nil : run ≠ []
  length_le : run.length ≤ field.width
  isDecimal : ∀ c ∈ run, isDecimal c = true

def IsInRange (field : Field) (run : List Char) : Prop := ∃ n, readNumber field.capacity run = some n ∧ n ≤ field.limit

theorem le_foldl_digits (cs : List Char) (n : Nat) :
    n ≤ cs.foldl (fun n c => n * 10 + Number.digitValue c) n := by
  induction cs generalizing n with
  | nil => exact Nat.le_refl n
  | cons c cs ih => exact Nat.le_trans (Nat.le_trans (Nat.le_mul_of_pos_right n (by decide)) (Nat.le_add_right _ _)) (ih _)

theorem readDigits_eq_some_iff {capacity n m : Nat} (hn : n ≤ capacity) (cs : List Char) :
    readDigits capacity n cs = some m ↔
      (∀ c ∈ cs, c.isDigit = true) ∧ cs.foldl (fun n c => n * 10 + Number.digitValue c) n = m ∧ m ≤ capacity := by
  induction cs generalizing n with
  | nil =>
    simp only [readDigits, List.not_mem_nil, false_implies, implies_true, List.foldl_nil, true_and, Option.some_inj]
    exact ⟨fun h => ⟨h, h ▸ hn⟩, fun h => h.1⟩
  | cons c cs ih =>
    rw [readDigits, List.forall_mem_cons, List.foldl_cons]
    by_cases hc : c.isDigit = true
    · rw [if_pos hc]
      dsimp only
      by_cases hcapacity : n * 10 + Number.digitValue c ≤ capacity
      · rw [if_pos hcapacity, ih hcapacity]
        simp only [hc, true_and]
      · rw [if_neg hcapacity]
        have hle := le_foldl_digits cs (n * 10 + Number.digitValue c)
        refine ⟨fun h => by contradiction, fun ⟨_, hm, hle'⟩ => ?_⟩
        omega
    · simp [hc]

/-- A run without a sign is read exactly if it consists of digits, and what is read is its value. -/
theorem readNumber_eq_some_iff {capacity m : Nat} {run : List Char} (hne : run ≠ []) (hplus : '+' ∉ run) :
    readNumber capacity run = some m ↔
      (∀ c ∈ run, c.isDigit = true) ∧ Number.ofDigits run = m ∧ m ≤ capacity := by
  have hread : readNumber capacity run = readDigits capacity 0 run := by
    rw [readNumber.eq_def]
    split
    · contradiction
    · simp at hplus
    · rfl
  rw [hread, readDigits_eq_some_iff (Nat.zero_le capacity)]
  rfl

theorem eq_of_append_mark {run other rest others : List Char} {mark : Char} (h : mark ∉ run) (hother : mark ∉ other)
    (htext : run ++ mark :: rest = other ++ mark :: others) : run = other ∧ rest = others := by
  have htake {run : List Char} (h : mark ∉ run) (rest : List Char) :
      (run ++ mark :: rest).takeWhile (· != mark) = run := by
    rw [List.takeWhile_append_of_pos fun c hc => by simpa using ne_of_mem_of_not_mem hc h,
      List.takeWhile_cons_of_neg (by simp), List.append_nil]
  have hrun : run = other := by rw [← htake h rest, htext, htake hother]
  subst hrun
  exact ⟨rfl, (List.cons.inj (List.append_cancel_left htext)).2⟩

section Pattern

variable {isDecimal : Char → Bool} (hascii : ∀ c : Char, c.toNat < 128 → isDecimal c = c.isDigit)

theorem toNat_lt_of_isDigit {c : Char} (h : c.isDigit = true) : c.toNat < 128 := by
  have hc : c.toNat ≤ 57 := by
    simp only [Char.isDigit, Bool.and_eq_true, decide_eq_true_eq] at h
    exact UInt32.le_iff_toNat_le.1 h.2
  omega

include hascii

theorem Admits.not_mem {field : Field} {run : List Char} (h : Admits isDecimal field run) {c : Char}
    (hc : c.toNat < 128) (hdigit : c.isDigit = false) : c ∉ run := by
  intro hmem
  have hdecimal := h.isDecimal c hmem
  rw [hascii c hc, hdigit] at hdecimal
  contradiction

theorem isNumber_iff (field : Field) (run : List Char) :
    IsNumber field run ↔ Admits isDecimal field run ∧ IsInRange field run := by
  constructor
  · rintro ⟨hne, hlength, hdigit, hvalue⟩
    have hplus : '+' ∉ run := fun h => by simpa using hdigit _ h
    refine ⟨⟨hne, hlength, fun c hc => ?_⟩, Number.ofDigits run, ?_, hvalue⟩
    · rw [hascii c (toNat_lt_of_isDigit (hdigit c hc)), hdigit c hc]
    · exact (readNumber_eq_some_iff hne hplus).2 ⟨hdigit, rfl, Nat.le_trans hvalue field.limit_le⟩
  · rintro ⟨hadmits, m, hread, hm⟩
    have hplus : '+' ∉ run := hadmits.not_mem hascii (by decide) rfl
    obtain ⟨hdigit, rfl, -⟩ := (readNumber_eq_some_iff hadmits.ne_nil hplus).1 hread
    exact ⟨hadmits.ne_nil, hadmits.length_le, hdigit, hm⟩

/-- Matching a text by a pattern and then reading what its fields have taken comes to the same. -/
theorem isBlockText_iff_matched (cs : List Char) :
    IsBlockText cs ↔ ∃ parts : Parts, parts.text = cs ∧ parts.All (Admits isDecimal) ∧ parts.All IsInRange := by
  constructor
  · rintro ⟨parts, htext, h⟩
    exact ⟨parts, htext, h.imp fun field run h => ((isNumber_iff hascii field run).1 h).1,
      h.imp fun field run h => ((isNumber_iff hascii field run).1 h).2⟩
  · rintro ⟨parts, htext, hadmits, hrange⟩
    exact ⟨parts, htext, (hadmits.and hrange).imp fun field run h => (isNumber_iff hascii field run).2 h⟩

/-- There is one way at most to match a text. -/
theorem eq_of_admits {parts others : Parts} (h : parts.All (Admits isDecimal)) (hothers : others.All (Admits isDecimal))
    (htext : parts.text = others.text) : parts = others := by
  have hpoint {field : Field} {run : List Char} (h : Admits isDecimal field run) : '.' ∉ run :=
    h.not_mem hascii (by decide) rfl
  have hslash {field : Field} {run : List Char} (h : Admits isDecimal field run) : '/' ∉ run :=
    h.not_mem hascii (by decide) rfl
  obtain ⟨first, second, third, fourth, bits⟩ := parts
  obtain ⟨first', second', third', fourth', bits'⟩ := others
  obtain ⟨rfl, htext⟩ := eq_of_append_mark (hpoint h.first) (hpoint hothers.first) htext
  obtain ⟨rfl, htext⟩ := eq_of_append_mark (hpoint h.second) (hpoint hothers.second) htext
  obtain ⟨rfl, htext⟩ := eq_of_append_mark (hpoint h.third) (hpoint hothers.third) htext
  obtain ⟨rfl, rfl⟩ := eq_of_append_mark (hslash h.fourth) (hslash hothers.fourth) htext
  rfl

end Pattern

theorem mem_of_isBlockText {cs : List Char} (h : IsBlockText cs) :
    ∀ c ∈ cs, c.isDigit = true ∨ c = '.' ∨ c = '/' := by
  obtain ⟨parts, rfl, h⟩ := h
  intro c hc
  simp only [Parts.text, List.mem_append, List.mem_cons] at hc
  obtain hc | rfl | hc | rfl | hc | rfl | hc | rfl | hc := hc
  · exact .inl (h.first.isDigit c hc)
  · exact .inr (.inl rfl)
  · exact .inl (h.second.isDigit c hc)
  · exact .inr (.inl rfl)
  · exact .inl (h.third.isDigit c hc)
  · exact .inr (.inl rfl)
  · exact .inl (h.fourth.isDigit c hc)
  · exact .inr (.inr rfl)
  · exact .inl (h.bits.isDigit c hc)

def IsRefused (value : Tree) : Prop :=
  value ≠ .null ∧ Intrinsic.isCall value = false ∧ ∀ s, value = .string s → ¬IsBlockText s.toList

def shown : Tree → String
  | .string s => s
  | value => value.compact

def verdict (property : String) : Option Tree → List Diagnostic
  | none | some .null => []
  | some (.string s) => if isBlock s then [] else [refusal property s]
  | some value => if Intrinsic.isCall value then [] else [refusal property value.compact]

theorem check_eq (property : String) (resource : Resource) :
    check property resource = verdict property (resource.properties.get? property) := rfl

theorem verdict_of_isRefused (property : String) {value : Tree} (h : IsRefused value) :
    verdict property (some value) = [refusal property (shown value)] := by
  obtain ⟨hnull, hcall, hblock⟩ := h
  cases value with
  | null => contradiction
  | string s => exact if_neg (mt (isBlock_iff s).1 (hblock s rfl))
  | _ => simp [verdict, shown, hcall]

theorem verdict_of_not_isRefused (property : String) {value : Tree} (h : ¬IsRefused value) :
    verdict property (some value) = [] := by
  cases value with
  | null => rfl
  | string s =>
    refine if_pos ((isBlock_iff s).2 (by_contra fun hblock => h ⟨nofun, rfl, fun t ht => ?_⟩))
    cases ht
    exact hblock
  | _ => exact if_pos (by_contra fun hcall => h ⟨nofun, Bool.eq_false_iff.2 hcall, nofun⟩)

/-- The value that is held against a resource: that of its block, if it is live and refused. -/
def Refuses (dead : DeadEntries) (name : String) (resource : Resource) (value : Tree) : Prop :=
  dead.isDeadProperty name "CidrBlock" = false ∧ resource.properties.get? "CidrBlock" = some value ∧ IsRefused value

theorem diagnostics_builtin {resource : Resource}
    (htype : resource.resourceType = "AWS::EC2::VPC" ∨ resource.resourceType = "AWS::EC2::Subnet") (name : String) :
    Registry.builtin.diagnostics name resource = check "CidrBlock" resource := by
  rw [Registry.diagnostics]
  obtain htype | htype := htype <;> rw [htype] <;> rfl

/-- Of a network that is live, the rules say that its block is refused if it is, and nothing else. -/
theorem diagnostics_liveResource (dead : DeadEntries) {e : String × Resource}
    (htype : e.2.resourceType = "AWS::EC2::VPC" ∨ e.2.resourceType = "AWS::EC2::Subnet") :
    (∀ value, Refuses dead e.1 e.2 value → Registry.builtin.diagnostics e.1 (Validator.liveResource dead e.1 e.2) =
      [refusal "CidrBlock" (shown value)]) ∧
    ((∀ value, ¬Refuses dead e.1 e.2 value) →
      Registry.builtin.diagnostics e.1 (Validator.liveResource dead e.1 e.2) = []) := by
  have hlive : (Validator.liveResource dead e.1 e.2).properties.get? "CidrBlock" =
      if dead.isDeadProperty e.1 "CidrBlock" then none else e.2.properties.get? "CidrBlock" :=
    Rulebook.get?_live dead e.1 e.2.properties "CidrBlock"
  have hcheck := @diagnostics_builtin (Validator.liveResource dead e.1 e.2) htype e.1
  rw [hcheck, check_eq, hlive]
  refine ⟨fun value ⟨hdead, hget, hrefused⟩ => ?_, fun hnone => ?_⟩
  · rw [if_neg (Bool.eq_false_iff.1 hdead), hget, verdict_of_isRefused _ hrefused]
  · cases hdead : dead.isDeadProperty e.1 "CidrBlock" with
    | true => rfl
    | false =>
      rw [if_neg Bool.false_ne_true]
      cases hget : e.2.properties.get? "CidrBlock" with
      | none => rfl
      | some value => exact verdict_of_not_isRefused _ fun hrefused => hnone value ⟨hdead, hget, hrefused⟩

/-- A text is taken for a block exactly if it is four decimal numbers of at most 255 and a length of at most 32, with
nothing before or after. It is the same if the text is matched by a pattern first, in one way at most, and its numbers are
read then, whatever decimal digits of other scripts the pattern admits. The report on a template refuses the block of a live
network exactly if it is live, not null, no call and no such text. -/
theorem report_blocks {isDecimal : Char → Bool} (hascii : ∀ c : Char, c.toNat < 128 → isDecimal c = c.isDigit) :
    (∀ s : String, (isBlock s = true ↔ IsBlockText s.toList) ∧
      (isBlock s = true ↔
        ∃ parts : Parts, parts.text = s.toList ∧ parts.All (Admits isDecimal) ∧ parts.All IsInRange) ∧
      (isBlock s = true → ∀ c ∈ s.toList, c.isDigit = true ∨ c = '.' ∨ c = '/')) ∧
    (∀ parts others : Parts, parts.All (Admits isDecimal) → others.All (Admits isDecimal) → parts.text = others.text →
      parts = others) ∧
    ∀ (v : Validator) (parsed : Parsed), v.rules = .builtin → parsed.template.resources.keys.Nodup →
      ∀ e ∈ parsed.template.resources,
        e.2.resourceType = "AWS::EC2::VPC" ∨ e.2.resourceType = "AWS::EC2::Subnet" →
        parsed.reconciliation.dead.isDeadResource e.1 = false →
        ∃ judged ∈ (v.validateParsed parsed).resources, judged.resource = e.1 ∧
          let said := (v.book.judge parsed.reconciliation.dead (.of parsed.template) e.1 e.2).diagnostics
          (∀ value, Refuses parsed.reconciliation.dead e.1 e.2 value →
            judged.diagnostics = said ++ [refusal "CidrBlock" (shown value)]) ∧
          ((∀ value, ¬Refuses parsed.reconciliation.dead e.1 e.2 value) → judged.diagnostics = said) := by
  refine ⟨fun s => ⟨isBlock_iff s, ?_, fun h => mem_of_isBlockText ((isBlock_iff s).1 h)⟩, ?_, ?_⟩
  · exact (isBlock_iff s).trans (isBlockText_iff_matched hascii s.toList)
  · exact fun parts others h hothers => eq_of_admits hascii h hothers
  · intro v parsed hrules hnames e he htype hlive
    have hentry := v.entry_eq_add hnames parsed.reconciliation.dead he
    rw [hrules] at hentry
    obtain ⟨hrefused, hnone⟩ := diagnostics_liveResource parsed.reconciliation.dead htype
    refine ⟨v.entry parsed.template parsed.reconciliation.dead e, ?_, v.resource_entry _ _ _, fun value hvalue => ?_,
      fun hvalue => ?_⟩
    · rw [Validator.resources_validateParsed]
      exact List.mem_map_of_mem (List.mem_filter.2 ⟨he, by rw [hlive]; rfl⟩)
    · rw [hentry, hrefused value hvalue]
      rfl
    · rw [hentry, hnone hvalue]
      exact List.append_nil _

def networks : Parsed where
  format := .json
  template := { Template.blank with
    resources := [
      ("Net", { Resource.blank with
        resourceType := "AWS::EC2::VPC", properties := [("CidrBlock", .string "10.0.0.0/16\n")] }),
      ("Part", { Resource.blank with
        resourceType := "AWS::EC2::Subnet", properties := [("CidrBlock", .array [.null])] })] }
  tree := .null
  reconciliation := ⟨0, ⟨[], [("Part", "CidrBlock")]⟩⟩

def arabicDigit (c : Char) : Bool := c.isDigit || (0x660 ≤ c.toNat && c.toNat ≤ 0x669)

theorem report_blocks_networks :
    (∀ c : Char, c.toNat < 128 → arabicDigit c = c.isDigit) ∧
    (isBlock "10.0.0.0/16" = true ∧ isBlock "1\u0660.0.0.0/16" = false) ∧
    (Validator.make (.empty "1") .standard).rules = .builtin ∧
    Refuses networks.reconciliation.dead "Net" (networks.template.resources[0]).2 (.string "10.0.0.0/16\n") ∧
    ∃ judged ∈ ((Validator.make (.empty "1") .standard).validateParsed networks).resources, judged.resource = "Net" ∧
      judged.diagnostics = [⟨.error, "Type needs to be specified"⟩,
        ⟨.error, "CidrBlock 10.0.0.0/16\n is not a valid CIDR block"⟩] := by
  have hascii (c : Char) (hc : c.toNat < 128) : arabicDigit c = c.isDigit := by
    rw [arabicDigit, decide_eq_false (by omega), Bool.false_and, Bool.or_false]
  obtain ⟨htexts, -, hreports⟩ := report_blocks hascii
  have hrefuses : Refuses networks.reconciliation.dead "Net" (networks.template.resources[0]).2
      (.string "10.0.0.0/16\n") := by
    refine ⟨rfl, rfl, nofun, rfl, fun s hs hblock => ?_⟩
    cases hs
    have := mem_of_isBlockText hblock '\n' (by decide)
    revert this
    decide
  obtain ⟨judged, hmem, hname, hrefused, -⟩ := hreports (.make (.empty "1") .standard) networks rfl (by decide)
    (networks.template.resources[0]) List.mem_cons_self (.inl rfl) rfl
  refine ⟨hascii, ⟨by decide, by decide⟩, rfl, hrefuses, judged, hmem, hname, ?_⟩
  exact hrefused _ hrefuses

end CloudTemplate.Cidr
