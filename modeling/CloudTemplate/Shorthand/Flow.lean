import CloudTemplate.Intrinsic
import CloudTemplate.Shorthand.Quoting
import CloudTemplate.Text.Utf8
/-! Values written on one line: scalars, bracketed collections and tags. Reading a value keeps its
spacing and takes a plain scalar as far as its surroundings allow; what follows the value is left. -/
namespace CloudTemplate.Shorthand

mutual

inductive Flow where
  | plain (text : List Char)
  | quoted (text : List Char)
  | sequence (items : Items)
  | mapping (pairs : Pairs)
  /-- A tag that is no shorthand, such as `!!str`, kept before its value. -/
  | kept (tag : List Char) (value : Flow)
  | call (f : Intrinsic) (argument : Flow)
  /-- A tag whose argument stands on the following lines, as a block scalar if there is an indicator. -/
  | opened (f : Intrinsic) (indicator : Option (List Char))

inductive Items where
  | close (gap : List Char)
  | last (before : List Char) (value : Flow) (after : List Char)
  | more (before : List Char) (value : Flow) (after : List Char) (rest : Items)

inductive Pairs where
  | close (gap : List Char)
  | last (before key gap : List Char) (slot : Slot)
  | more (before key gap : List Char) (slot : Slot) (rest : Pairs)

inductive Slot where
  | bare
  | empty (gap : List Char)
  | filled (before : List Char) (value : Flow) (after : List Char)

end

inductive FlowFault where
  | openSequence
  | openMapping
  | unexpectedInSequence (c : Char)
  | unexpectedInMapping (c : Char)
  | openString
  | unknownTag (name : String)
  | noArgument (name : String)
  | textAfterArgument (name : String) (rest : String)
  deriving DecidableEq, Repr

def octetText (c : Char) : String := String.singleton (Char.ofNat (Text.leadOctet c))

def FlowFault.message : FlowFault → String
  | .openSequence => "unbalanced [ in flow sequence"
  | .openMapping => "unbalanced \x7b in flow mapping"
  | .unexpectedInSequence c => "unexpected '" ++ octetText c ++ "' in flow sequence"
  | .unexpectedInMapping c => "unexpected '" ++ octetText c ++ "' in flow mapping"
  | .openString => "unterminated double-quoted string"
  | .unknownTag name => "unknown shorthand tag !" ++ name
  | .noArgument name => "!" ++ name ++ " has no argument"
  | .textAfterArgument name rest => "unexpected text after argument of " ++ name ++ ": " ++ rest

def gapOf (cs : List Char) : List Char := cs.takeWhile Text.isGap

def afterGap (cs : List Char) : List Char := cs.dropWhile Text.isGap

theorem length_afterGap_le (cs : List Char) : (afterGap cs).length ≤ cs.length :=
  (List.dropWhile_suffix Text.isGap).length_le

abbrev Rest (cs : List Char) := { rest : List Char // rest.length ≤ cs.length }

def Rest.of (cs : List Char) (n : Nat) : Rest cs := ⟨cs.drop n, by simp⟩

def Rest.widen {cs ds : List Char} (rest : Rest cs) (h : cs.length ≤ ds.length) : Rest ds :=
  ⟨rest.1, Nat.le_trans rest.2 h⟩

def closeQuote : List Char → Option (List Char × List Char)
  | [] => none
  | '"' :: cs => some ([], cs)
  | ['\\'] => none
  | '\\' :: c :: cs => (closeQuote cs).map fun split => ('\\' :: c :: split.1, split.2)
  | c :: cs => (closeQuote cs).map fun split => (c :: split.1, split.2)

theorem length_closeQuote {cs text rest : List Char} (h : closeQuote cs = some (text, rest)) :
    rest.length < cs.length := by
  fun_induction closeQuote cs generalizing text with
  | case1 => simp at h
  | case2 cs => simp only [Option.some.injEq, Prod.mk.injEq] at h; simp [h.2]
  | case3 => simp at h
  | case4 c cs ih =>
    obtain ⟨split, hsplit, heq⟩ := Option.map_eq_some_iff.1 h
    obtain ⟨rfl, rfl⟩ := Prod.mk.inj heq
    have := ih hsplit
    simp only [List.length_cons]
    omega
  | case5 c cs =>
    rename_i ih
    obtain ⟨split, hsplit, heq⟩ := Option.map_eq_some_iff.1 h
    obtain ⟨rfl, rfl⟩ := Prod.mk.inj heq
    have := ih hsplit
    simp only [List.length_cons]
    omega

def endsPlain (c : Char) : Bool := c == ',' || c == ']' || c == '\x7d'

/-- A plain scalar: all of a line, or in a collection the text up to a comma or a closing bracket;
blanks that end it are left. -/
def plainText (inFlow : Bool) (cs : List Char) : List Char :=
  Text.trimEnd (if inFlow then cs.takeWhile fun c => !endsPlain c else cs)

def plainKeyRun : List Char → List Char
  | [] => []
  | c :: cs =>
    let ends := match cs with
      | [] => true
      | d :: _ => d == ' ' || d == ',' || d == '\x7d'
    if (c == ':' && ends) || c == ',' || c == '\x7d' then [] else c :: plainKeyRun cs

def plainKey (cs : List Char) : List Char := Text.trimEnd (plainKeyRun cs)

def readKey (cs : List Char) : Except FlowFault (List Char × Rest cs) :=
  match cs with
  | '"' :: body =>
    match h : closeQuote body with
    | none => .error .openString
    | some (text, rest) =>
      .ok ('"' :: text ++ ['"'], ⟨rest, by have := length_closeQuote h; simp only [List.length_cons]; omega⟩)
  | cs => .ok (plainKey cs, .of cs (plainKey cs).length)

def lacksArgument (inFlow : Bool) : List Char → Bool
  | [] => true
  | c :: _ => inFlow && endsPlain c

def isTagEnd (c : Char) : Bool := c == ' ' || endsPlain c

def afterName (cs : List Char) : List Char := afterGap (cs.dropWhile Char.isAlphanum)

theorem length_afterName_le (cs : List Char) : (afterName cs).length ≤ cs.length :=
  Nat.le_trans (length_afterGap_le _) (List.dropWhile_suffix Char.isAlphanum).length_le

def endsSlot : List Char → Bool
  | [] => true
  | c :: _ => c == ',' || c == '\x7d'

mutual

def readFlow (inFlow : Bool) (cs : List Char) : Except FlowFault (Flow × Rest cs) :=
  have hgap := length_afterGap_le cs
  match h : afterGap cs with
  | [] => .ok (.plain [], ⟨[], Nat.zero_le _⟩)
  | c :: rest =>
    have hrest : rest.length < cs.length := by rw [h, List.length_cons] at hgap; omega
    if c = '!' then
      match readTag inFlow rest with
      | .error fault => .error fault
      | .ok (value, after) => .ok (value, after.widen (Nat.le_of_lt hrest))
    else if c = '[' then
      match readItems rest with
      | .error fault => .error fault
      | .ok (items, after) => .ok (.sequence items, after.widen (Nat.le_of_lt hrest))
    else if c = '\x7b' then
      match readPairs rest with
      | .error fault => .error fault
      | .ok (pairs, after) => .ok (.mapping pairs, after.widen (Nat.le_of_lt hrest))
    else if c = '"' then
      match hq : closeQuote rest with
      | none => .error .openString
      | some (text, after) =>
        .ok (.quoted text, ⟨after, by have := length_closeQuote hq; omega⟩)
    else
      let text := plainText inFlow (c :: rest)
      .ok (.plain text, (Rest.of (c :: rest) text.length).widen (h ▸ hgap))
termination_by 4 * cs.length + 1

def readTag (inFlow : Bool) (cs : List Char) : Except FlowFault (Flow × Rest cs) :=
  if cs.head? = some '!' then
    let name := cs.takeWhile fun c => !isTagEnd c
    have hrest := (List.dropWhile_suffix (l := cs) fun c => !isTagEnd c).length_le
    match readFlow inFlow (cs.dropWhile fun c => !isTagEnd c) with
    | .error fault => .error fault
    | .ok (value, after) => .ok (.kept ('!' :: name) value, after.widen hrest)
  else
    let name := cs.takeWhile Char.isAlphanum
    match Intrinsic.ofTag? (String.ofList name) with
    | none => .error (.unknownTag (String.ofList name))
    | some f =>
      have hrest := length_afterName_le cs
      if lacksArgument inFlow (afterName cs) then
        if inFlow then .error (.noArgument (String.ofList name))
        else .ok (.opened f none, ⟨afterName cs, hrest⟩)
      else if !inFlow && isBlockIndicator (afterName cs) then
        .ok (.opened f (some (afterName cs)), ⟨[], Nat.zero_le _⟩)
      else
        match readFlow inFlow (afterName cs) with
        | .error fault => .error fault
        | .ok (value, after) => .ok (.call f value, after.widen hrest)
termination_by 4 * cs.length + 2

def readItems (cs : List Char) : Except FlowFault (Items × Rest cs) :=
  have hgap := length_afterGap_le cs
  match h : afterGap cs with
  | [] => .error .openSequence
  | c :: rest =>
    have hrest : rest.length < cs.length := by rw [h, List.length_cons] at hgap; omega
    if c = ']' then .ok (.close (gapOf cs), ⟨rest, Nat.le_of_lt hrest⟩)
    else
      match readFlow true (c :: rest) with
      | .error fault => .error fault
      | .ok (value, after) =>
        have hafter := Nat.le_trans (length_afterGap_le after.1) after.2
        match h' : afterGap after.1 with
        | [] => .error .openSequence
        | d :: tail =>
          have htail : tail.length < cs.length := by
            rw [h'] at hafter
            simp only [List.length_cons] at hafter
            omega
          if d = ',' then
            match readItems tail with
            | .error fault => .error fault
            | .ok (items, final) =>
              .ok (.more (gapOf cs) value (gapOf after.1) items, final.widen (Nat.le_of_lt htail))
          else if d = ']' then
            .ok (.last (gapOf cs) value (gapOf after.1), ⟨tail, Nat.le_of_lt htail⟩)
          else .error (.unexpectedInSequence d)
termination_by 4 * cs.length + 2

def readPairs (cs : List Char) : Except FlowFault (Pairs × Rest cs) :=
  have hgap := length_afterGap_le cs
  match h : afterGap cs with
  | [] => .error .openMapping
  | c :: rest =>
    have hrest : rest.length < cs.length := by rw [h, List.length_cons] at hgap; omega
    if c = '\x7d' then .ok (.close (gapOf cs), ⟨rest, Nat.le_of_lt hrest⟩)
    else
      match readKey (c :: rest) with
      | .error fault => .error fault
      | .ok (key, afterKey) =>
        have hkey : (afterGap afterKey.1).length ≤ cs.length :=
          Nat.le_trans (length_afterGap_le _) (Nat.le_trans afterKey.2 (h ▸ hgap))
        match readSlot (afterGap afterKey.1) with
        | .error fault => .error fault
        | .ok (slot, after) =>
          have hafter := Nat.le_trans after.2 hkey
          match h' : after.1 with
          | [] => .error .openMapping
          | d :: tail =>
            have htail : tail.length < cs.length := by
              rw [h'] at hafter
              simp only [List.length_cons] at hafter
              omega
            if d = ',' then
              match readPairs tail with
              | .error fault => .error fault
              | .ok (pairs, final) =>
                .ok (.more (gapOf cs) key (gapOf afterKey.1) slot pairs,
                  final.widen (Nat.le_of_lt htail))
            else if d = '\x7d' then
              .ok (.last (gapOf cs) key (gapOf afterKey.1) slot, ⟨tail, Nat.le_of_lt htail⟩)
            else .error (.unexpectedInMapping d)
termination_by 4 * cs.length + 3

def readSlot (cs : List Char) : Except FlowFault (Slot × Rest cs) :=
  match cs with
  | ':' :: rest =>
    have hvalue := length_afterGap_le rest
    if endsSlot (afterGap rest) then
      .ok (.empty (gapOf rest), ⟨afterGap rest, Nat.le_succ_of_le hvalue⟩)
    else
      match readFlow true (afterGap rest) with
      | .error fault => .error fault
      | .ok (value, after) =>
        have hafter := Nat.le_trans (length_afterGap_le after.1) (Nat.le_trans after.2 hvalue)
        .ok (.filled (gapOf rest) value (gapOf after.1), ⟨afterGap after.1, Nat.le_succ_of_le hafter⟩)
  | cs => .ok (.bare, ⟨cs, Nat.le_refl _⟩)
termination_by 4 * cs.length + 2

end

end CloudTemplate.Shorthand
