import CloudTemplate.Proofs.Octets.Slices
import CloudTemplate.Shorthand.Layout
/-! Loops over the octets of a text. A walk keeps track of quotes with a flag and steps over the octet behind a backslash,
even where that is the first of several octets of a character or there is none. It comes to the same as reading the text
character by character: `findKeyColon_offset`, `commentStart_offset`, `bracketBalance_eq`. -/
namespace CloudTemplate.Octets
open Text Shorthand

variable {ε σ ρ : Type}

def skipWhile (p : Char → Bool) (bytes : List Char) : Nat → Nat → Run ε Nat
  | 0, _ => .error .unfinished
  | fuel + 1, pos =>
    match bytes[pos]? with
    | some b => if p b then skipWhile p bytes fuel (pos + 1) else .ok pos
    | none => .ok pos

def skip (p : Char → Bool) (bytes : List Char) (pos : Nat) : Run ε Nat := skipWhile p bytes (bytes.length + 1) pos

/-- A walk that looks at each octet outside quotes, other than the quotes: it goes on with another state or ends with a
result. Between quotes a backslash takes the next octet with it. -/
def walk (visit : σ → Nat → Char → Run ε (ρ ⊕ σ)) (bytes : List Char) : Nat → Bool → Nat → σ → Run ε (ρ ⊕ σ)
  | 0, _, _, _ => .error .unfinished
  | fuel + 1, inQuote, i, s =>
    match bytes[i]? with
    | none => .ok (.inr s)
    | some b =>
      if b = '\\' ∧ inQuote then walk visit bytes fuel inQuote (i + 2) s
      else if b = '"' then walk visit bytes fuel (!inQuote) (i + 1) s
      else if inQuote then walk visit bytes fuel inQuote (i + 1) s
      else do
        match ← visit s i b with
        | .inl result => pure (.inl result)
        | .inr s => walk visit bytes fuel inQuote (i + 1) s

def endsAt (bytes : List Char) (i : Nat) : Run ε Bool :=
  if i = bytes.length then pure true
  else do
    let b ← octetAt bytes i
    pure (b == ' ')

def octetBefore (bytes : List Char) (i : Nat) : Run ε Char := do
  let place ← minus i 1
  octetAt bytes place

def visitKey (bytes : List Char) (start : Nat) (_ : Unit) (i : Nat) (b : Char) : Run ε (Option Nat ⊕ Unit) :=
  if b = '#' then
    if start < i then do
      let before ← octetBefore bytes i
      pure (if before = ' ' then .inl none else .inr ())
    else pure (.inr ())
  else if b = ':' then do
    let ends ← endsAt bytes (i + 1)
    pure (if ends then .inl (some i) else .inr ())
  else pure (.inr ())

def findKeyColon (bytes : List Char) (start : Nat) : Run ε (Option Nat) :=
  match bytes[start]? with
  | none => pure none
  | some b =>
    if ['!', '[', '\x7b', '#', '|', '>'].contains b then pure none
    else (walk (visitKey bytes start) bytes (bytes.length + 1) false start ()).map (Sum.elim id fun _ => none)

def visitComment (bytes : List Char) (start : Nat) (_ : Unit) (i : Nat) (b : Char) : Run ε (Nat ⊕ Unit) :=
  if b = '#' then
    if i = start then pure (.inl i)
    else do
      let before ← octetBefore bytes i
      pure (if before = ' ' then .inl i else .inr ())
  else pure (.inr ())

def commentStart (bytes : List Char) (start : Nat) : Run ε (Option Nat) :=
  (walk (visitComment bytes start) bytes (bytes.length + 1) false start ()).map (Sum.elim some fun _ => none)

def visitBracket (depth : Int) (_ : Nat) (b : Char) : Run ε (Empty ⊕ Int) :=
  if b = '[' ∨ b = '\x7b' then pure (.inr (depth + 1))
  else if b = ']' ∨ b = '\x7d' then pure (.inr (depth - 1))
  else pure (.inr depth)

def balance (bytes : List Char) : Run ε Int :=
  (walk visitBracket bytes (bytes.length + 1) false 0 0).map (Sum.elim Empty.elim id)

theorem skipWhile_eq (p : Char → Bool) (front back : List Char) {fuel : Nat} (h : back.length < fuel) :
    skipWhile (ε := ε) p (front ++ back) fuel front.length = .ok (front ++ back.takeWhile p).length := by
  induction back generalizing front fuel with
  | nil =>
    obtain ⟨fuel, rfl⟩ := Nat.exists_eq_add_of_lt h
    simp [skipWhile]
  | cons b back ih =>
    obtain ⟨fuel, rfl⟩ : ∃ n, fuel = n + 1 := Nat.exists_eq_succ_of_ne_zero (by omega)
    have hb : (front ++ b :: back)[front.length]? = some b := by simp
    rw [skipWhile, hb]
    dsimp only
    cases hp : p b with
    | false => simp [hp]
    | true =>
      have hnext := @ih (front ++ [b]) fuel (by simpa using h)
      rw [List.append_assoc, List.singleton_append, List.length_append, List.length_singleton] at hnext
      rw [if_pos rfl, hnext]
      simp [hp]

/-- A loop over a text stops at what is left behind the characters that pass the test. -/
theorem skip_offset {p : Char → Bool} {k : Bool} (hp : ∀ c, isWide c = true → p c = k) {src rest : List Char}
    (h : rest <:+ src) : skip (ε := ε) p (units src) (offset src rest) = .ok (offset src (rest.dropWhile p)) := by
  obtain ⟨front, rfl⟩ := h
  have hfuel : (units rest).length < (units front ++ units rest).length + 1 := by rw [List.length_append]; omega
  have hloop := skipWhile_eq (ε := ε) p (units front) (units rest) hfuel
  rw [offset_append, skip, units_append, ← length_units, hloop]
  have hsplit : rest.takeWhile p ++ rest.dropWhile p = rest := List.takeWhile_append_dropWhile
  rw [takeWhile_units hp, ← units_append, length_units, ← offset_append (front ++ rest.takeWhile p) (rest.dropWhile p),
    List.append_assoc, hsplit]

def walkOver (visit : σ → Nat → Char → Run ε (ρ ⊕ σ)) : List Char → Quoting → Nat → σ → Run ε (ρ ⊕ σ)
  | [], _, _, s => .ok (.inr s)
  | b :: back, q, i, s =>
    if q = .outside ∧ b ≠ '"' then do
      match ← visit s i b with
      | .inl result => pure (.inl result)
      | .inr s => walkOver visit back .outside (i + 1) s
    else walkOver visit back (q.next b) (i + 1) s

theorem walk_eq (visit : σ → Nat → Char → Run ε (ρ ⊕ σ)) (front back : List Char) (inQuote : Bool) (s : σ) {fuel : Nat}
    (h : back.length < fuel) :
    walk visit (front ++ back) fuel inQuote front.length s =
      walkOver visit back (if inQuote then .inside else .outside) front.length s := by
  -- On the fuel: each round takes one octet, or two behind a backslash between quotes.
  induction fuel generalizing front back inQuote s with
  | zero => contradiction
  | succ fuel ih =>
    have hnext (b : Char) (more : List Char) (inQuote : Bool) (s : σ) (hmore : more.length < fuel) :
        walk visit (front ++ b :: more) fuel inQuote (front.length + 1) s =
          walkOver visit more (if inQuote then .inside else .outside) (front.length + 1) s := by
      simpa using ih (front ++ [b]) more inQuote s hmore
    cases back with
    | nil => simp [walk, walkOver]
    | cons b back =>
      have hback : back.length < fuel := by simpa using h
      have hb : (front ++ b :: back)[front.length]? = some b := by simp
      rw [walk, hb]
      dsimp only
      cases inQuote with
      | false =>
        by_cases hquote : b = '"'
        · simp [walkOver, hquote, hnext, hback, Quoting.next]
        · simp [walkOver, hquote, hnext, hback]
      | true =>
        by_cases hescape : b = '\\'
        · cases back with
          | nil =>
            obtain ⟨fuel, rfl⟩ : ∃ n, fuel = n + 1 := Nat.exists_eq_succ_of_ne_zero (by simp at hback; omega)
            simp [walk, walkOver, hescape]
          | cons c back =>
            have hskip := ih (front ++ [b, c]) back true s (by simp at hback; omega)
            simp [walkOver, hescape, Quoting.next] at hskip ⊢
            exact hskip
        · by_cases hquote : b = '"'
          · simp [walkOver, hquote, hnext, hback, Quoting.next]
          · simp [walkOver, hescape, hquote, hnext, hback, Quoting.next]

def passed (bytes : List Char) (start i : Nat) : Option Char := if start < i then bytes[i - 1]? else none

section Places

variable {bytes back : List Char} {start i : Nat} {b : Char}

theorem getElem?_of_drop (h : bytes.drop i = b :: back) : bytes[i]? = some b := by
  rw [← List.head?_drop, h, List.head?_cons]

theorem drop_succ_of_drop (h : bytes.drop i = b :: back) : bytes.drop (i + 1) = back := by
  rw [← List.drop_drop, h, List.drop_one, List.tail_cons]

theorem passed_succ (hstart : start ≤ i) (h : bytes.drop i = b :: back) : passed bytes start (i + 1) = some b := by
  rw [passed, if_pos (Nat.lt_succ_of_le hstart), Nat.add_sub_cancel, getElem?_of_drop h]

/-- A walk finds an octet in front of each place but its first. -/
theorem octetBefore_passed (hlt : start < i) (h : bytes.drop i = b :: back) :
    ∃ c, passed bytes start i = some c ∧ octetBefore (ε := ε) bytes i = .ok c := by
  have hi : i - 1 < bytes.length := by
    have := (List.getElem?_eq_some_iff.1 (getElem?_of_drop h)).1
    omega
  have hminus : minus (ε := ε) i 1 = .ok (i - 1) := if_pos (Nat.succ_le_of_lt (Nat.zero_lt_of_lt hlt))
  exact ⟨bytes[i - 1], by rw [passed, if_pos hlt, List.getElem?_eq_getElem hi],
    by simp [octetBefore, hminus, octetAt, hi]⟩

theorem endsAt_eq (hi : i ≤ bytes.length) (h : bytes.drop i = back) : endsAt (ε := ε) bytes i = .ok (endsKey back) := by
  have hlength : bytes.length - i = back.length := by rw [← List.length_drop, h]
  cases back with
  | nil =>
    rw [endsAt, if_pos (by simp at hlength; omega)]
    rfl
  | cons c back =>
    rw [List.length_cons] at hlength
    rw [endsAt, if_neg (by omega), octetAt, getElem?_of_drop h]
    rfl

theorem visitKey_eq (h : bytes.drop i = b :: back) :
    visitKey (ε := ε) bytes start () i b =
      .ok (if b = '#' ∧ passed bytes start i = some ' ' then .inl none
        else if b = ':' ∧ endsKey back then .inl (some i) else .inr ()) := by
  by_cases hsharp : b = '#'
  · rw [visitKey, if_pos hsharp]
    by_cases hlt : start < i
    · obtain ⟨c, hpassed, hoctet⟩ := octetBefore_passed (ε := ε) hlt h
      rw [if_pos hlt, hoctet, hpassed]
      by_cases hc : c = ' ' <;> simp [hsharp, hc]
    · rw [if_neg hlt, passed, if_neg hlt]
      simp [hsharp]
  · rw [visitKey, if_neg hsharp]
    by_cases hcolon : b = ':'
    · have hi : i + 1 ≤ bytes.length := (List.getElem?_eq_some_iff.1 (getElem?_of_drop h)).1
      rw [if_pos hcolon, endsAt_eq hi (drop_succ_of_drop h)]
      cases hends : endsKey back <;> simp [hcolon]
    · simp [hsharp, hcolon]

theorem visitComment_eq (hstart : start ≤ i) (h : bytes.drop i = b :: back) :
    visitComment (ε := ε) bytes start () i b =
      .ok (if b = '#' ∧ (passed bytes start i).all (· == ' ') then .inl i else .inr ()) := by
  by_cases hsharp : b = '#'
  · rw [visitComment, if_pos hsharp]
    by_cases heq : i = start
    · rw [if_pos heq, passed, if_neg (Nat.not_lt.2 (Nat.le_of_eq heq))]
      simp [hsharp]
    · obtain ⟨c, hpassed, hoctet⟩ := octetBefore_passed (ε := ε) (Nat.lt_of_le_of_ne hstart (Ne.symm heq)) h
      rw [if_neg heq, hoctet, hpassed]
      by_cases hc : c = ' ' <;> simp [hsharp, hc]
  · simp [visitComment, hsharp]

theorem walkOver_visitKey (hstart : start ≤ i) (h : bytes.drop i = back) (q : Quoting) :
    (walkOver (visitKey (ε := ε) bytes start) back q i ()).map (Sum.elim id fun _ => none) =
      .ok ((splitKeyFrom q (passed bytes start i) back).map fun split => i + split.1.length) := by
  induction back generalizing i q with
  | nil => rfl
  | cons b back ih =>
    have hnext (q : Quoting) := ih (Nat.le_succ_of_le hstart) (drop_succ_of_drop h) q
    rw [passed_succ hstart h] at hnext
    have hlater (result : Option (List Char × List Char)) :
        (result.map fun split => (b :: split.1, split.2)).map (fun split => i + split.1.length) =
          result.map fun split => i + 1 + split.1.length := by
      rw [Option.map_map]
      refine congrArg (Option.map · result) (funext fun split => ?_)
      simp only [Function.comp, List.length_cons]
      omega
    rw [walkOver, splitKeyFrom]
    by_cases hvisit : q = .outside ∧ b ≠ '"'
    · obtain ⟨rfl, hquote⟩ := hvisit
      have hq : Quoting.outside.next b = .outside := by simp [Quoting.next, hquote]
      simp only [hquote, ne_eq, not_false_eq_true, and_self, true_and, if_true, visitKey_eq h, hq]
      by_cases hsharp : b = '#' ∧ passed bytes start i = some ' '
      · rw [if_pos hsharp, if_pos hsharp]
        rfl
      · rw [if_neg hsharp, if_neg hsharp]
        by_cases hcolon : b = ':' ∧ endsKey back = true
        · rw [if_pos hcolon, if_pos hcolon]
          rfl
        · rw [if_neg hcolon, if_neg hcolon, hlater]
          exact hnext .outside
    · have hother {d : Char} (hd : d ≠ '"') (hall : q = .outside ∧ b = d) : False :=
        hvisit ⟨hall.1, hall.2 ▸ hd⟩
      have hsharp : ¬(q = .outside ∧ b = '#' ∧ passed bytes start i = some ' ') := fun hall =>
        hother (by decide) ⟨hall.1, hall.2.1⟩
      have hcolon : ¬(q = .outside ∧ b = ':' ∧ endsKey back = true) := fun hall =>
        hother (by decide) ⟨hall.1, hall.2.1⟩
      rw [if_neg hvisit, if_neg hsharp, if_neg hcolon, hlater]
      exact hnext (q.next b)

theorem walkOver_visitComment (hstart : start ≤ i) (h : bytes.drop i = back) (q : Quoting) :
    (walkOver (visitComment (ε := ε) bytes start) back q i ()).map (Sum.elim some fun _ => none) =
      .ok (if (splitCommentFrom q ((passed bytes start i).all (· == ' ')) back).2 = [] then none
        else some (i + (splitCommentFrom q ((passed bytes start i).all (· == ' ')) back).1.length)) := by
  induction back generalizing i q with
  | nil => rfl
  | cons b back ih =>
    have hnext (q : Quoting) := ih (Nat.le_succ_of_le hstart) (drop_succ_of_drop h) q
    rw [passed_succ hstart h, Option.all_some] at hnext
    have hlength (front : List Char) : i + (b :: front).length = i + 1 + front.length := by
      rw [List.length_cons, Nat.add_assoc, Nat.add_comm 1]
    rw [walkOver, splitCommentFrom]
    by_cases hvisit : q = .outside ∧ b ≠ '"'
    · obtain ⟨rfl, hquote⟩ := hvisit
      have hq : Quoting.outside.next b = .outside := by simp [Quoting.next, hquote]
      simp only [hquote, ne_eq, not_false_eq_true, and_self, true_and, if_true, visitComment_eq hstart h, hq]
      by_cases hsharp : b = '#' ∧ (passed bytes start i).all (· == ' ') = true
      · rw [if_pos hsharp, if_pos hsharp]
        rfl
      · rw [if_neg hsharp, if_neg hsharp]
        dsimp only
        rw [hlength]
        exact hnext .outside
    · have hsharp : ¬(q = .outside ∧ b = '#' ∧ (passed bytes start i).all (· == ' ') = true) := fun hall =>
        hvisit ⟨hall.1, hall.2.1 ▸ by decide⟩
      rw [if_neg hvisit, if_neg hsharp]
      dsimp only
      rw [hlength]
      exact hnext (q.next b)

theorem walkOver_visitBracket (back : List Char) (q : Quoting) (i : Nat) (depth : Int) :
    walkOver (visitBracket (ε := ε)) back q i depth = .ok (.inr (depth + balanceFrom q back)) := by
  induction back generalizing q i depth with
  | nil => rw [balanceFrom, Int.add_zero]; rfl
  | cons b back ih =>
    rw [walkOver, balanceFrom]
    by_cases hvisit : q = .outside ∧ b ≠ '"'
    · obtain ⟨rfl, hquote⟩ := hvisit
      have hq : Quoting.outside.next b = .outside := by simp [Quoting.next, hquote]
      have hbracket : visitBracket (ε := ε) depth i b = .ok (.inr (depth + bracketWeight b)) := by
        rw [visitBracket, bracketWeight]
        split
        · rfl
        · split
          · rfl
          · rw [Int.add_zero]; rfl
      rw [if_pos ⟨rfl, hquote⟩, hbracket, if_pos rfl, hq, ← Int.add_assoc]
      exact ih .outside (i + 1) _
    · have hweight : (if q = .outside then bracketWeight b else 0) = 0 := by
        split
        · rename_i hq
          rw [Decidable.not_not.1 fun hb => hvisit ⟨hq, hb⟩]
          rfl
        · rfl
      rw [if_neg hvisit, hweight, Int.zero_add, ih]

end Places

def onward : Quoting → Quoting
  | .escaped => .inside
  | q => q

theorem next_of_isWide {c : Char} (h : isWide c = true) (q : Quoting) : q.next c = onward q := by
  have hquote : c ≠ '"' := by rintro rfl; contradiction
  have hbackslash : c ≠ '\\' := by rintro rfl; contradiction
  cases q <;> simp [Quoting.next, onward, hquote, hbackslash]

theorem onward_onward (q : Quoting) : onward (onward q) = onward q := by
  cases q <;> rfl

/-- To a key in front of a character it matters only whether a space stands there. -/
theorem splitKeyFrom_congr {p r : Option Char} (h : p = some ' ' ↔ r = some ' ') (q : Quoting) (cs : List Char) :
    splitKeyFrom q p cs = splitKeyFrom q r cs := by
  cases cs with
  | nil => rfl
  | cons c cs => simp only [splitKeyFrom, h]

section Wide

variable {bs : List Char} (hbs : ∀ b ∈ bs, isWide b = true) (hne : bs ≠ [])

include hbs hne

theorem splitKeyFrom_wide (q : Quoting) (p : Option Char) (cs : List Char) :
    splitKeyFrom q p (bs ++ cs) = (splitKeyFrom (onward q) none cs).map fun split => (bs ++ split.1, split.2) := by
  induction bs generalizing q p with
  | nil => exact absurd rfl hne
  | cons b bs ih =>
    have hb := hbs b List.mem_cons_self
    have hsharp : b ≠ '#' := by rintro rfl; contradiction
    have hcolon : b ≠ ':' := by rintro rfl; contradiction
    have hspace : some b = some ' ' ↔ none = some ' ' := iff_of_false (by rintro ⟨rfl⟩; contradiction) (by simp)
    rw [List.cons_append, splitKeyFrom, if_neg (by simp [hsharp]), if_neg (by simp [hcolon]), next_of_isWide hb]
    cases bs with
    | nil => rw [List.nil_append, splitKeyFrom_congr hspace]; rfl
    | cons d ds =>
      rw [ih (fun e he => hbs e (List.mem_cons_of_mem b he)) (List.cons_ne_nil d ds), onward_onward, Option.map_map]
      rfl

theorem splitCommentFrom_wide (q : Quoting) (atStart : Bool) (cs : List Char) :
    splitCommentFrom q atStart (bs ++ cs) =
      (bs ++ (splitCommentFrom (onward q) false cs).1, (splitCommentFrom (onward q) false cs).2) := by
  induction bs generalizing q atStart with
  | nil => exact absurd rfl hne
  | cons b bs ih =>
    have hb := hbs b List.mem_cons_self
    have hsharp : b ≠ '#' := by rintro rfl; contradiction
    have hspace : (b == ' ') = false := beq_eq_false_iff_ne.2 (by rintro rfl; contradiction)
    rw [List.cons_append, splitCommentFrom, if_neg (by simp [hsharp]), next_of_isWide hb, hspace]
    cases bs with
    | nil => rfl
    | cons d ds => rw [ih (fun e he => hbs e (List.mem_cons_of_mem b he)) (List.cons_ne_nil d ds), onward_onward]; rfl

theorem balanceFrom_wide (q : Quoting) (cs : List Char) : balanceFrom q (bs ++ cs) = balanceFrom (onward q) cs := by
  induction bs generalizing q with
  | nil => exact absurd rfl hne
  | cons b bs ih =>
    have hb := hbs b List.mem_cons_self
    have hweight : bracketWeight b = 0 := by
      have hnarrow {d : Char} (hd : isWide d = false) : b ≠ d := fun h => by rw [h, hd] at hb; contradiction
      simp [bracketWeight, hnarrow (d := '[') rfl, hnarrow (d := '\x7b') rfl, hnarrow (d := ']') rfl,
        hnarrow (d := '\x7d') rfl]
    rw [List.cons_append, balanceFrom, hweight, ite_self, Int.zero_add, next_of_isWide hb]
    cases bs with
    | nil => rfl
    | cons d ds => rw [ih (fun e he => hbs e (List.mem_cons_of_mem b he)) (List.cons_ne_nil d ds), onward_onward]

end Wide

theorem units_ne_nil (c : Char) : units [c] ≠ [] := fun hnil => by simpa [hnil] using head_units_singleton c

theorem endsKey_units (cs : List Char) : endsKey (units cs) = endsKey cs := by
  cases cs with
  | nil => rfl
  | cons c cs =>
    obtain ⟨rest, hrest⟩ := List.head?_eq_some_iff.1 (head_units_cons c cs)
    rw [hrest, endsKey, endsKey, Bool.eq_iff_iff, beq_iff_eq, beq_iff_eq, leadUnit_eq_iff rfl]

theorem splitKeyFrom_units (q : Quoting) (p : Option Char) (cs : List Char) :
    splitKeyFrom q p (units cs) = (splitKeyFrom q p cs).map fun split => (units split.1, units split.2) := by
  induction cs generalizing q p with
  | nil => rfl
  | cons c cs ih =>
    rw [units_cons]
    cases hc : isWide c with
    | false =>
      rw [units_narrow hc, List.singleton_append, splitKeyFrom, splitKeyFrom, endsKey_units, ih]
      split
      · rfl
      · split
        · rfl
        · rw [Option.map_map, Option.map_map]
          refine congrArg (Option.map · _) (funext fun split => ?_)
          simp only [Function.comp, units_cons_narrow hc]
    | true =>
      have hsingle := @splitKeyFrom_wide [c] (by simpa using hc) (List.cons_ne_nil c []) q p cs
      rw [splitKeyFrom_wide (isWide_of_mem_units hc) (units_ne_nil c), ih, ← List.singleton_append (l := cs), hsingle,
        Option.map_map, Option.map_map]
      refine congrArg (Option.map · _) (funext fun split => ?_)
      simp only [Function.comp, units_append]

theorem splitCommentFrom_units (q : Quoting) (atStart : Bool) (cs : List Char) :
    splitCommentFrom q atStart (units cs) =
      (units (splitCommentFrom q atStart cs).1, units (splitCommentFrom q atStart cs).2) := by
  induction cs generalizing q atStart with
  | nil => rfl
  | cons c cs ih =>
    cases hc : isWide c with
    | false =>
      rw [units_cons_narrow hc, splitCommentFrom, splitCommentFrom, ih]
      split
      · rw [units_cons_narrow hc]; rfl
      · simp only [units_cons_narrow hc]
    | true =>
      have hsingle := @splitCommentFrom_wide [c] (by simpa using hc) (List.cons_ne_nil c []) q atStart cs
      rw [units_cons, splitCommentFrom_wide (isWide_of_mem_units hc) (units_ne_nil c), ih,
        ← List.singleton_append (l := cs), hsingle]
      simp only [units_append]

theorem balanceFrom_units (q : Quoting) (cs : List Char) : balanceFrom q (units cs) = balanceFrom q cs := by
  induction cs generalizing q with
  | nil => rfl
  | cons c cs ih =>
    rw [units_cons]
    cases hc : isWide c with
    | false => rw [units_narrow hc, List.singleton_append, balanceFrom, balanceFrom, ih]
    | true =>
      have hsingle := @balanceFrom_wide [c] (by simpa using hc) (List.cons_ne_nil c []) q cs
      rw [balanceFrom_wide (isWide_of_mem_units hc) (units_ne_nil c), ih, ← hsingle, List.singleton_append]

section Rests

variable {src rest : List Char} (h : rest <:+ src)

include h

theorem walk_offset (visit : σ → Nat → Char → Run ε (ρ ⊕ σ)) (s : σ) :
    walk visit (units src) ((units src).length + 1) false (offset src rest) s =
      walkOver visit (units rest) .outside (offset src rest) s := by
  obtain ⟨front, rfl⟩ := h
  have hfuel : (units rest).length < (units front ++ units rest).length + 1 := by rw [List.length_append]; omega
  have hwalk := walk_eq visit (units front) (units rest) false s hfuel
  rw [offset_append, units_append, ← length_units, hwalk]
  rfl

theorem endsAt_offset : endsAt (ε := ε) (units src) (offset src rest) = .ok (endsKey rest) := by
  rw [endsAt_eq (by rw [length_units]; exact Nat.sub_le _ _) (drop_units_offset h), endsKey_units]

theorem findKeyColon_offset :
    findKeyColon (ε := ε) (units src) (offset src rest) =
      .ok ((splitKey rest).map fun split => offset src (':' :: split.2)) := by
  rw [findKeyColon, getElem?_units_offset h]
  cases rest with
  | nil => rfl
  | cons c cs =>
    have hopens : ['!', '[', '\x7b', '#', '|', '>'].contains (leadUnit c) =
        ['!', '[', '\x7b', '#', '|', '>'].contains c := by
      have hd {d : Char} (hd : isWide d = false) : (leadUnit c == d) = (c == d) := by
        rw [Bool.eq_iff_iff, beq_iff_eq, beq_iff_eq, leadUnit_eq_iff hd]
      simp only [List.contains_cons, hd (d := '!') rfl, hd (d := '[') rfl, hd (d := '\x7b') rfl, hd (d := '#') rfl,
        hd (d := '|') rfl, hd (d := '>') rfl, List.contains_nil]
    rw [List.head?_cons, Option.map_some, splitKey]
    dsimp only
    rw [hopens]
    split
    · rfl
    · have hwalk := walkOver_visitKey (ε := ε) (Nat.le_refl _) (drop_units_offset h) .outside
      rw [walk_offset h, hwalk, passed, if_neg (Nat.lt_irrefl _), splitKeyFrom_units, Option.map_map]
      cases hsplit : splitKeyFrom .outside none (c :: cs) with
      | none => rfl
      | some split =>
        have hparts := splitKeyFrom_append hsplit
        rw [← hparts] at h ⊢
        simp only [Option.map_some, Function.comp, length_units, offset_add h]

/-- What a comment start falls back to, the end of the text, is where what is left without a comment ends. -/
theorem commentStart_offset :
    ∃ found, commentStart (ε := ε) (units src) (offset src rest) = .ok found ∧
      found.getD (units src).length = offset src (splitCommentFrom .outside true rest).2 := by
  have hwalk := walkOver_visitComment (ε := ε) (Nat.le_refl _) (drop_units_offset h) .outside
  have hparts := splitCommentFrom_append .outside true rest
  refine ⟨_, (congrArg (Except.map _) (walk_offset h _ ())).trans hwalk, ?_⟩
  rw [passed, if_neg (Nat.lt_irrefl _), Option.all_none, splitCommentFrom_units]
  have hadd : offset src rest + byteLength (splitCommentFrom .outside true rest).1 =
      offset src (splitCommentFrom .outside true rest).2 := by
    rw [← hparts] at h
    simpa only [hparts] using offset_add h
  cases hcomment : (splitCommentFrom .outside true rest).2 with
  | nil => simp
  | cons c cs =>
    rw [hcomment] at hadd
    have hne : units (c :: cs) ≠ [] := by
      rw [units_cons]
      exact List.append_ne_nil_of_left_ne_nil (units_ne_nil c) _
    rw [if_neg hne]
    simp only [length_units, hadd, Option.getD_some]

end Rests

theorem balance_units (cs : List Char) : balance (ε := ε) (units cs) = .ok (bracketBalance cs) := by
  have hwalk := walk_offset (List.suffix_refl cs) (visitBracket (ε := ε)) 0
  rw [offset_self, walkOver_visitBracket, Int.zero_add, balanceFrom_units] at hwalk
  rw [balance, hwalk]
  rfl

end CloudTemplate.Octets
