import CloudTemplate.Proofs.Octets.Walks
import CloudTemplate.Proofs.Shorthand.Written
/-! A scanner of values with a cursor. Gaps, strings, plain scalars and keys are slices from the place where they start to
the place where a loop over the octets stops; a plain scalar gives back the blanks that end it, and may be empty. -/
namespace CloudTemplate.Octets
open Text Shorthand

abbrev Scan (α : Type) := Run String α

def fail {α : Type} (fault : FlowFault) : Scan α := .error (.fault fault.message)

inductive Scanned where
  | plain (text : List Char)
  | quoted (text : List Char)
  | structured (text : List Char)
  | waiting (functions : List String) (indicator : Option (List Char))
  deriving DecidableEq, Repr

namespace Scanned

def text : Scanned → List Char
  | .plain cs | .quoted cs | .structured cs => cs
  | .waiting functions _ => joinNames functions

def ofFragment : Fragment → Scanned
  | .plain cs => .plain cs
  | .quoted cs => .quoted (inQuotes cs)
  | .structured cs => .structured cs
  | .waiting functions indicator => .waiting functions indicator

@[simp] theorem text_ofFragment (fragment : Fragment) : (ofFragment fragment).text = fragment.text := by
  cases fragment <;> rfl

end Scanned

def cutQuotes (cs : List Char) : Scan (List Char) := do
  let stop ← minus (byteLength cs) 1
  slice cs 1 stop

def argumentOf (name : String) : Scanned → Scan (List Char)
  | .plain cs => pure (argumentText name (.plain cs))
  | .quoted cs =>
    if name = Intrinsic.getAtt.longName then do
      let inner ← cutQuotes cs
      pure (attributeList inner)
    else pure cs
  | .structured cs => pure cs
  | .waiting functions _ => pure (joinNames functions)

def render (name : String) (argument : Scanned) : Scan (List Char) := do
  let argument ← argumentOf name argument
  pure ("\x7b \"".toList ++ name.toList ++ "\" : ".toList ++ argument ++ " \x7d".toList)

def apply (name : String) : Scanned → Scan Scanned
  | .waiting functions indicator => pure (.waiting (name :: functions) indicator)
  | argument => do
    let call ← render name argument
    pure (.structured call)

section Parts

variable (src : List Char)

def peek (pos : Nat) : Option Char := (units src)[pos]?

def scanGap (pos : Nat) : Scan (List Char × Nat) := do
  let stop ← skip isGap (units src) pos
  let gap ← slice src pos stop
  pure (gap, stop)

def closeFrom (bytes : List Char) : Nat → Nat → Scan (Option Nat)
  | 0, _ => .error .unfinished
  | fuel + 1, pos =>
    match bytes[pos]? with
    | none => pure none
    | some b =>
      if b = '\\' then closeFrom bytes fuel (pos + 2)
      else if b = '"' then pure (some (pos + 1))
      else closeFrom bytes fuel (pos + 1)

def scanQuoted (pos : Nat) : Scan (List Char × Nat) := do
  match ← closeFrom (units src) ((units src).length + 1) (pos + 1) with
  | some stop => do
    let text ← slice src pos stop
    pure (text, stop)
  | none => fail .openString

def scanTrimmed (pos stop : Nat) : Scan (List Char × Nat) := do
  let raw ← slice src pos stop
  pure (trimEnd raw, pos + byteLength (trimEnd raw))

def scanPlain (inFlow : Bool) (pos : Nat) : Scan (List Char × Nat) := do
  let stop ← if inFlow then skip (fun b => !endsPlain b) (units src) pos else pure (units src).length
  scanTrimmed src pos stop

def keyEnd (bytes : List Char) : Nat → Nat → Scan Nat
  | 0, _ => .error .unfinished
  | fuel + 1, pos =>
    match bytes[pos]? with
    | none => pure pos
    | some b =>
      let ends := match bytes[pos + 1]? with
        | none => true
        | some d => d == ' ' || d == ',' || d == '\x7d'
      if (b == ':' && ends) || b == ',' || b == '\x7d' then pure pos else keyEnd bytes fuel (pos + 1)

def scanPlainKey (pos : Nat) : Scan (List Char × Nat) := do
  let stop ← keyEnd (units src) ((units src).length + 1) pos
  scanTrimmed src pos stop

end Parts

theorem cutQuotes_inQuotes (cs : List Char) : cutQuotes (inQuotes cs) = .ok cs := by
  have hsize : ('"').utf8Size = 1 := rfl
  have hlength : byteLength (inQuotes cs) = byteLength cs + 2 := by
    rw [inQuotes, List.cons_append, byteLength, byteLength_append, hsize]
    simp only [byteLength, hsize]
    omega
  rw [cutQuotes, minus, if_pos (by omega), ok_bind, slice_eq_ok_iff, hlength]
  refine ⟨['"'], ['"'], rfl, rfl, ?_⟩
  simp only [List.cons_append, List.nil_append, byteLength, hsize]
  omega

theorem argumentOf_ofFragment (name : String) (fragment : Fragment) :
    argumentOf name (.ofFragment fragment) = .ok (argumentText name fragment) := by
  cases fragment with
  | quoted cs =>
    rw [Scanned.ofFragment, argumentOf, argumentText, cutQuotes_inQuotes]
    split <;> rfl
  | _ => rfl

theorem apply_ofFragment (name : String) (fragment : Fragment) :
    apply name (.ofFragment fragment) = .ok (.ofFragment (applyName name fragment)) := by
  have hrender := argumentOf_ofFragment name fragment
  cases fragment <;> simp_all [apply, render, Scanned.ofFragment, applyName, callText]

theorem closeFrom_eq (front back : List Char) {fuel : Nat} (h : back.length < fuel) :
    closeFrom (front ++ back) fuel front.length =
      .ok ((closeQuote back).map fun split => (front ++ split.1).length + 1) := by
  induction fuel generalizing front back with
  | zero => contradiction
  | succ fuel ih =>
    have hnext (passed more : List Char) (hmore : more.length < fuel) :
        closeFrom (front ++ (passed ++ more)) fuel (front.length + passed.length) =
          .ok ((closeQuote more).map fun split => (front ++ (passed ++ split.1)).length + 1) := by
      simpa using ih (front ++ passed) more hmore
    cases back with
    | nil => simp [closeFrom, closeQuote]
    | cons b back =>
      have hback : back.length < fuel := by simpa using h
      have hb : (front ++ b :: back)[front.length]? = some b := by simp
      rw [closeFrom, hb]
      dsimp only
      by_cases hbackslash : b = '\\'
      · subst hbackslash
        rw [if_pos rfl]
        cases back with
        | nil =>
          obtain ⟨fuel, rfl⟩ : ∃ n, fuel = n + 1 := Nat.exists_eq_succ_of_ne_zero (Nat.ne_of_gt hback)
          simp [closeFrom, closeQuote]
        | cons c back =>
          rw [closeQuote, Option.map_map]
          exact hnext ['\\', c] back (Nat.lt_of_succ_lt hback)
      · rw [if_neg hbackslash]
        by_cases hquote : b = '"'
        · subst hquote
          rw [if_pos rfl, closeQuote]
          simp
        · rw [if_neg hquote, closeQuote_cons hquote hbackslash, Option.map_map]
          exact hnext [b] back hback

theorem keyEnd_eq (front back : List Char) {fuel : Nat} (h : back.length < fuel) :
    keyEnd (front ++ back) fuel front.length = .ok (front ++ plainKeyRun back).length := by
  induction back generalizing front fuel with
  | nil =>
    obtain ⟨fuel, rfl⟩ := Nat.exists_eq_add_of_lt h
    simp [keyEnd, plainKeyRun]
  | cons b back ih =>
    obtain ⟨fuel, rfl⟩ : ∃ n, fuel = n + 1 := Nat.exists_eq_succ_of_ne_zero (Nat.ne_of_gt (Nat.zero_lt_of_lt h))
    have hb : (front ++ b :: back)[front.length]? = some b := by simp
    have hbehind : (front ++ b :: back)[front.length + 1]? = back.head? := by
      rw [← List.head?_drop, ← List.drop_drop, List.drop_left, List.drop_one, List.tail_cons]
    have hnext := @ih (front ++ [b]) fuel (by simpa using h)
    rw [List.append_assoc, List.singleton_append, List.length_append, List.length_singleton] at hnext
    have hstops : ((b == ':' && match back.head? with
        | none => true
        | some d => d == ' ' || d == ',' || d == '\x7d') || b == ',' || b == '\x7d') = stopsKey b back := by
      rw [stopsKey]
      cases back with
      | nil => rfl
      | cons d ds => simp [endsSlot, Bool.or_comm, Bool.or_assoc]
    rw [keyEnd, hb, hbehind]
    dsimp only
    rw [hstops, plainKeyRun_cons]
    cases stopsKey b back with
    | true => simp
    | false =>
      rw [if_neg Bool.false_ne_true, if_neg Bool.false_ne_true, hnext]
      simp

section Wide

variable {c : Char} (h : isWide c = true)

include h

theorem ne_of_isWide {d : Char} (hd : isWide d = false) : c ≠ d := by
  rintro rfl
  rw [h] at hd
  contradiction

theorem isGap_of_isWide : isGap c = false := by
  simp [isGap, ne_of_isWide h (d := ' ') rfl, ne_of_isWide h (d := '\t') rfl]

theorem endsPlain_of_isWide : endsPlain c = false := by
  simp [endsPlain, ne_of_isWide h (d := ',') rfl, ne_of_isWide h (d := ']') rfl, ne_of_isWide h (d := '\x7d') rfl]

theorem isTagEnd_of_isWide : isTagEnd c = false := by
  simp [isTagEnd, endsPlain_of_isWide h, ne_of_isWide h (d := ' ') rfl]

theorem isAlphanum_of_isWide : c.isAlphanum = false := by
  have hc : 128 ≤ c.val.toNat := by simpa [isWide] using h
  have hle {n : UInt32} (hn : n.toNat < 128) : ¬c.val ≤ n := fun hle =>
    Nat.not_lt.2 (UInt32.le_iff_toNat_le.1 hle) (Nat.lt_of_lt_of_le hn hc)
  have hrange (m : UInt32) {n : UInt32} (hn : n.toNat < 128) : (decide (c.val ≥ m) && decide (c.val ≤ n)) = false := by
    rw [decide_eq_false (hle hn), Bool.and_false]
  have hupper : c.isUpper = false := decide_eq_false fun hboth => hle (by decide) hboth.2
  have hlower : c.isLower = false := hrange 97 (by decide)
  have hdigit : c.isDigit = false := hrange 48 (by decide)
  change (c.isUpper || c.isLower || c.isDigit) = false
  rw [hupper, hlower, hdigit, Bool.false_or, Bool.false_or]

end Wide

theorem closeQuote_wide {bs : List Char} (hbs : ∀ b ∈ bs, isWide b = true) (cs : List Char) :
    closeQuote (bs ++ cs) = (closeQuote cs).map fun split => (bs ++ split.1, split.2) := by
  induction bs with
  | nil => simp
  | cons b bs ih =>
    have hb := hbs b List.mem_cons_self
    rw [List.cons_append, closeQuote_cons (ne_of_isWide hb rfl) (ne_of_isWide hb rfl),
      ih fun d hd => hbs d (List.mem_cons_of_mem b hd), Option.map_map]
    rfl

/-- The octet that a backslash takes with it may be the first of several; the others are none that end a string. -/
theorem closeQuote_units (cs : List Char) :
    closeQuote (units cs) = (closeQuote cs).map fun split => (units split.1, units split.2) := by
  have hbackslash (ds : List Char) : units ('\\' :: ds) = '\\' :: units ds := units_cons_narrow rfl ds
  induction cs using escapeInduction with
  | nil => rfl
  | last => rfl
  | quote cs =>
    rw [units_cons_narrow rfl, closeQuote, closeQuote]
    rfl
  | pair c cs ih =>
    rw [hbackslash, closeQuote]
    cases hc : isWide c with
    | false =>
      rw [units_cons_narrow hc, closeQuote, ih, Option.map_map, Option.map_map]
      refine congrArg (Option.map · _) (funext fun split => ?_)
      simp only [Function.comp, hbackslash, units_cons_narrow hc]
    | true =>
      obtain ⟨b, bs, hbs⟩ := List.exists_cons_of_ne_nil (units_ne_nil c)
      have hwide : ∀ d ∈ bs, isWide d = true := fun d hd =>
        isWide_of_mem_units hc d (hbs ▸ List.mem_cons_of_mem b hd)
      rw [units_cons, hbs, List.cons_append, closeQuote, closeQuote_wide hwide, ih]
      simp only [Option.map_map]
      refine congrArg (Option.map · _) (funext fun split => ?_)
      simp only [Function.comp, hbackslash, units_cons c split.1, hbs, List.cons_append]
  | plain c cs hquote hplain ih =>
    rw [closeQuote_cons hquote hplain]
    cases hc : isWide c with
    | false =>
      rw [units_cons_narrow hc, closeQuote_cons hquote hplain, ih, Option.map_map, Option.map_map]
      refine congrArg (Option.map · _) (funext fun split => ?_)
      simp only [Function.comp, units_cons_narrow hc]
    | true =>
      rw [units_cons, closeQuote_wide (isWide_of_mem_units hc), ih, Option.map_map, Option.map_map]
      refine congrArg (Option.map · _) (funext fun split => ?_)
      simp only [Function.comp, ← units_cons]

theorem stopsKey_units (b : Char) (cs : List Char) : stopsKey b (units cs) = stopsKey b cs := by
  cases cs with
  | nil => rfl
  | cons c cs =>
    obtain ⟨rest, hrest⟩ := List.head?_eq_some_iff.1 (head_units_cons c cs)
    have hd {d : Char} (hd : isWide d = false) : (leadUnit c == d) = (c == d) := by
      rw [Bool.eq_iff_iff, beq_iff_eq, beq_iff_eq, leadUnit_eq_iff hd]
    simp only [hrest, stopsKey, endsSlot, List.head?_cons, Option.some_beq_some, hd (d := ',') rfl, hd (d := '\x7d') rfl,
      hd (d := ' ') rfl]

theorem plainKeyRun_units (cs : List Char) : plainKeyRun (units cs) = units (plainKeyRun cs) := by
  induction cs with
  | nil => rfl
  | cons c cs ih =>
    cases hc : isWide c with
    | false =>
      rw [units_cons_narrow hc, plainKeyRun_cons, plainKeyRun_cons, stopsKey_units, ih]
      split
      · rfl
      · rw [units_cons_narrow hc]
    | true =>
      have hgoes {b : Char} (hb : isWide b = true) (ds : List Char) : plainKeyRun (b :: ds) = b :: plainKeyRun ds := by
        have hstops : stopsKey b ds = false := by
          simp [stopsKey, ne_of_isWide hb (d := ':') rfl, ne_of_isWide hb (d := ',') rfl,
            ne_of_isWide hb (d := '\x7d') rfl]
        rw [plainKeyRun_cons, hstops, if_neg Bool.false_ne_true]
      have hrun (bs ds : List Char) (hbs : ∀ b ∈ bs, isWide b = true) :
          plainKeyRun (bs ++ ds) = bs ++ plainKeyRun ds := by
        induction bs with
        | nil => rfl
        | cons b bs ih =>
          rw [List.forall_mem_cons] at hbs
          rw [List.cons_append, hgoes hbs.1, ih hbs.2, List.cons_append]
      rw [units_cons, hrun _ _ (isWide_of_mem_units hc), ih, hgoes hc, ← units_cons]

section Rests

variable {src rest : List Char} (h : rest <:+ src)

include h

theorem slice_between {piece behind : List Char} (hsplit : piece ++ behind = rest) :
    slice (ε := String) src (offset src rest) (offset src behind) = .ok piece := by
  subst hsplit
  exact slice_offset h

theorem peek_offset : peek src (offset src rest) = rest.head?.map leadUnit := getElem?_units_offset h

theorem scanGap_offset : scanGap src (offset src rest) = .ok (gapOf rest, offset src (afterGap rest)) := by
  have hsplit : gapOf rest ++ afterGap rest = rest := List.takeWhile_append_dropWhile
  rw [scanGap, skip_offset (fun _ => isGap_of_isWide) h, ok_bind, ← afterGap, slice_between h hsplit]
  rfl

/-- Giving back the blanks at the end of a slice leaves the cursor in front of a character. -/
theorem scanTrimmed_offset {raw behind : List Char} (hsplit : raw ++ behind = rest) :
    scanTrimmed src (offset src rest) (offset src behind) =
      .ok (trimEnd raw, offset src (rest.drop (trimEnd raw).length)) := by
  have hkept : trimEnd raw ++ rest.drop (trimEnd raw).length = rest :=
    List.prefix_iff_eq_append.1 ((prefix_trimEnd raw).trans ⟨behind, hsplit⟩)
  have hplace : offset src rest + byteLength (trimEnd raw) = offset src (rest.drop (trimEnd raw).length) := by
    rw [← hkept] at h
    simpa only [hkept] using offset_add h
  rw [scanTrimmed, slice_between h hsplit, ok_bind, hplace]
  rfl

theorem scanPlain_offset (inFlow : Bool) :
    scanPlain src inFlow (offset src rest) =
      .ok (plainText inFlow rest, offset src (rest.drop (plainText inFlow rest).length)) := by
  rw [scanPlain]
  cases inFlow with
  | true =>
    have hwide (c : Char) (hc : isWide c = true) : (!endsPlain c) = true := by rw [endsPlain_of_isWide hc]; rfl
    rw [if_pos rfl, skip_offset hwide h, ok_bind]
    exact scanTrimmed_offset h List.takeWhile_append_dropWhile
  | false =>
    have htrimmed := scanTrimmed_offset h (List.append_nil rest)
    rw [offset_nil, ← length_units] at htrimmed
    exact htrimmed

theorem scanPlainKey_offset :
    scanPlainKey src (offset src rest) = .ok (plainKey rest, offset src (rest.drop (plainKey rest).length)) := by
  obtain ⟨behind, hsplit, -⟩ := plainKeyRun_append_rest rest
  have hend : keyEnd (units src) ((units src).length + 1) (offset src rest) = .ok (offset src behind) := by
    obtain ⟨front, rfl⟩ := h
    have hfuel : (units rest).length < (units front ++ units rest).length + 1 := by rw [List.length_append]; omega
    have hloop := keyEnd_eq (units front) (units rest) hfuel
    rw [offset_append, units_append, ← length_units front, hloop, plainKeyRun_units, ← units_append, length_units,
      ← offset_append (front ++ plainKeyRun rest) behind, List.append_assoc, ← hsplit]
  rw [scanPlainKey, hend, ok_bind]
  exact scanTrimmed_offset h hsplit.symm

omit h in
theorem scanQuoted_offset (h : '"' :: rest <:+ src) :
    scanQuoted src (offset src ('"' :: rest)) =
      match closeQuote rest with
      | some (text, behind) => .ok (inQuotes text, offset src behind)
      | none => fail .openString := by
  have hrest : rest <:+ src := (List.suffix_cons '"' rest).trans h
  have hclose : closeFrom (units src) ((units src).length + 1) (offset src rest) =
      .ok ((closeQuote rest).map fun split => offset src split.2) := by
    have hquoted (split : List Char × List Char) (hsplit : closeQuote rest = some split) :
        offset src rest + byteLength split.1 + 1 = offset src split.2 := by
      have hparts : rest = split.1 ++ '"' :: split.2 := (closeQuote_ok hsplit).2
      rw [hparts] at hrest ⊢
      rw [offset_add hrest, offset_add_one rfl ((List.suffix_append _ _).trans hrest)]
    obtain ⟨front, rfl⟩ := hrest
    have hfuel : (units rest).length < (units front ++ units rest).length + 1 := by rw [List.length_append]; omega
    have hloop := closeFrom_eq (units front) (units rest) hfuel
    rw [offset_append] at hquoted ⊢
    rw [units_append, ← length_units front, hloop, closeQuote_units, Option.map_map]
    cases hsplit : closeQuote rest with
    | none => rfl
    | some split => simp [← hquoted split hsplit]
  rw [scanQuoted, offset_add_one rfl h, hclose, ok_bind]
  cases hsplit : closeQuote rest with
  | none => rfl
  | some split =>
    obtain ⟨text, behind⟩ := split
    have hparts : inQuotes text ++ behind = '"' :: rest := by
      rw [(closeQuote_ok hsplit).2, inQuotes]
      simp
    rw [Option.map_some]
    dsimp only
    rw [slice_between h hparts]
    rfl

end Rests

end CloudTemplate.Octets
