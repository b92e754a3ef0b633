import CloudTemplate.Proofs.Text.Positions
/-! Texts read with cursors that count octets. A run of such a program may look for an octet that is not there, cut a
character in two or take more from a number than it holds, and it may go on for good; here each of these halts it. Cursors
that stand where some rest of a text starts are sound: `slice_offset`. -/
namespace CloudTemplate.Octets
open Text

/-- What stops a run before it has a result: an access out of range, a bound on its steps, or a fault that it reports. -/
inductive Halt (ε : Type) where
  | crash
  | unfinished
  | fault (reason : ε)
  deriving DecidableEq, Repr

abbrev Run (ε α : Type) := Except (Halt ε) α

def Run.Ends {ε α : Type} : Run ε α → Prop
  | .ok _ | .error (.fault _) => True
  | .error .crash | .error .unfinished => False

def units (cs : List Char) : List Char := (encode cs).map fun b => Char.ofNat b.toNat

variable {ε α β : Type}

@[simp] theorem ok_bind (a : α) (next : α → Run ε β) : (Except.ok a >>= next) = next a := rfl

@[simp] theorem error_bind (halt : Halt ε) (next : α → Run ε β) : (Except.error halt >>= next) = .error halt := rfl

@[simp] theorem pure_eq_ok (a : α) : (pure a : Run ε α) = .ok a := rfl

def octetAt (bytes : List Char) (i : Nat) : Run ε Char :=
  match bytes[i]? with
  | some b => .ok b
  | none => .error .crash

def minus (m n : Nat) : Run ε Nat := if n ≤ m then .ok (m - n) else .error .crash

def splitAt? : List Char → Nat → Option (List Char × List Char)
  | cs, 0 => some ([], cs)
  | [], _ + 1 => none
  | c :: cs, n + 1 =>
    if c.utf8Size ≤ n + 1 then (splitAt? cs (n + 1 - c.utf8Size)).map fun split => (c :: split.1, split.2) else none

def slice (cs : List Char) (start stop : Nat) : Run ε (List Char) :=
  match (splitAt? cs stop).bind fun split => splitAt? split.1 start with
  | some (_, piece) => .ok piece
  | none => .error .crash

def offset (src rest : List Char) : Nat := byteLength src - byteLength rest

theorem byteLength_append (cs ds : List Char) : byteLength (cs ++ ds) = byteLength cs + byteLength ds := by
  rw [← length_encode, encode_append, List.length_append, length_encode, length_encode]

@[simp] theorem length_units (cs : List Char) : (units cs).length = byteLength cs := by
  rw [units, List.length_map, length_encode]

@[simp] theorem units_nil : units [] = [] := rfl

@[simp] theorem units_append (cs ds : List Char) : units (cs ++ ds) = units cs ++ units ds := by
  rw [units, encode_append, List.map_append, units, units]

theorem units_cons (c : Char) (cs : List Char) : units (c :: cs) = units [c] ++ units cs := units_append [c] cs

theorem units_singleton (c : Char) : units [c] = (String.utf8EncodeChar c).map fun b => Char.ofNat b.toNat := by
  rw [units, encode_cons]
  exact congrArg _ (List.append_nil _)

def isWide (c : Char) : Bool := 128 ≤ c.toNat

/-- A character of one octet is that octet. -/
theorem units_narrow {c : Char} (h : isWide c = false) : units [c] = [c] := by
  have hc : c.toNat < 128 := by simpa [isWide] using h
  have hoctet : (UInt8.ofNat c.toNat).toNat = c.toNat := UInt8.toNat_ofNat_of_lt' (Nat.lt_trans hc (by decide))
  have hencode : String.utf8EncodeChar c = [UInt8.ofNat c.toNat] := if_pos (Nat.le_of_lt_succ hc)
  rw [units_singleton, hencode, List.map_singleton, hoctet, Char.ofNat_toNat]

theorem units_cons_narrow {c : Char} (h : isWide c = false) (cs : List Char) : units (c :: cs) = c :: units cs := by
  rw [units_cons, units_narrow h, List.singleton_append]

/-- The octets of a character of several octets lie behind all characters of one. -/
theorem isWide_of_mem_units {c : Char} (h : isWide c = true) : ∀ b ∈ units [c], isWide b = true := by
  have hc : 128 ≤ c.val.toNat := by simpa [isWide] using h
  have hwide {n : Nat} (hn : n < 256) (hle : 128 ≤ n) : isWide (Char.ofNat (UInt8.ofNat n).toNat) = true := by
    have hvalid : n.isValidChar := .inl (by omega)
    have hchar : (Char.ofNat n).toNat = n := by
      rw [Char.ofNat, dif_pos hvalid]
      rfl
    rw [UInt8.toNat_ofNat_of_lt' hn, isWide, hchar]
    exact decide_eq_true hle
  rw [units_singleton, String.utf8EncodeChar, List.forall_mem_map, if_neg (by omega)]
  split
  · rw [List.forall_mem_cons, List.forall_mem_singleton]
    exact ⟨hwide (by omega) (by omega), hwide (by omega) (by omega)⟩
  · split
    · rw [List.forall_mem_cons, List.forall_mem_cons, List.forall_mem_singleton]
      exact ⟨hwide (by omega) (by omega), hwide (by omega) (by omega), hwide (by omega) (by omega)⟩
    · rw [List.forall_mem_cons, List.forall_mem_cons, List.forall_mem_cons, List.forall_mem_singleton]
      exact ⟨hwide (by omega) (by omega), hwide (by omega) (by omega), hwide (by omega) (by omega),
        hwide (by omega) (by omega)⟩

def leadUnit (c : Char) : Char := Char.ofNat (leadOctet c)

theorem head_units_singleton (c : Char) : (units [c]).head? = some (leadUnit c) := by
  have hlast : c.val.toNat < 0x110000 := c.valid.elim (fun h => Nat.lt_trans h (by decide)) And.right
  have hhead {m : Nat} {bs : List UInt8} (hm : m < 256) (heq : leadOctet c = m) :
      ((UInt8.ofNat m :: bs).map fun b => Char.ofNat b.toNat).head? = some (leadUnit c) := by
    rw [List.map_cons, List.head?_cons, UInt8.toNat_ofNat_of_lt' hm, leadUnit, heq]
  have hlead : leadOctet c =
      if c.val.toNat < 0x80 then c.val.toNat else if c.val.toNat < 0x800 then 0xC0 + c.val.toNat / 64
      else if c.val.toNat < 0x10000 then 0xE0 + c.val.toNat / 4096 else 0xF0 + c.val.toNat / 262144 := rfl
  rw [units_singleton, String.utf8EncodeChar]
  split
  · exact hhead (by omega) (by rw [hlead, if_pos (by omega)])
  · split
    · exact hhead (by omega) (by rw [hlead, if_neg (by omega), if_pos (by omega)]; omega)
    · split
      · exact hhead (by omega) (by rw [hlead, if_neg (by omega), if_neg (by omega), if_pos (by omega)]; omega)
      · exact hhead (by omega) (by rw [hlead, if_neg (by omega), if_neg (by omega), if_neg (by omega)]; omega)

theorem head_units_cons (c : Char) (cs : List Char) : (units (c :: cs)).head? = some (leadUnit c) := by
  rw [units_cons, List.head?_append, head_units_singleton, Option.some_or]

theorem leadUnit_narrow {c : Char} (h : isWide c = false) : leadUnit c = c := by
  have hhead := head_units_singleton c
  rw [units_narrow h] at hhead
  exact (Option.some.inj hhead).symm

theorem isWide_leadUnit (c : Char) : isWide (leadUnit c) = isWide c := by
  cases h : isWide c with
  | false => rw [leadUnit_narrow h, h]
  | true => exact isWide_of_mem_units h _ (List.mem_of_mem_head? (head_units_singleton c))

/-- An octet that stands for a character is the first octet of no other. -/
theorem leadUnit_eq_iff {c d : Char} (hd : isWide d = false) : leadUnit c = d ↔ c = d := by
  constructor
  · intro h
    have hc : isWide c = false := by rw [← isWide_leadUnit, h, hd]
    rwa [leadUnit_narrow hc] at h
  · rintro rfl
    exact leadUnit_narrow hd

/-- Characters and their octets are alike to a test that holds of all characters of several octets or of none. -/
theorem takeWhile_units {p : Char → Bool} {k : Bool} (hp : ∀ c, isWide c = true → p c = k) (cs : List Char) :
    (units cs).takeWhile p = units (cs.takeWhile p) := by
  induction cs with
  | nil => rfl
  | cons c cs ih =>
    rw [units_cons]
    cases hc : isWide c with
    | false =>
      rw [units_narrow hc, List.singleton_append]
      cases hpc : p c with
      | false => rw [List.takeWhile_cons_of_neg (by simp [hpc]), List.takeWhile_cons_of_neg (by simp [hpc]), units_nil]
      | true => rw [List.takeWhile_cons_of_pos hpc, List.takeWhile_cons_of_pos hpc, ih, units_cons_narrow hc]
    | true =>
      have hall : ∀ b ∈ units [c], p b = k := fun b hb => hp b (isWide_of_mem_units hc b hb)
      cases k with
      | false =>
        rw [List.takeWhile_cons_of_neg (by simp [hp c hc]), units_nil]
        have hne : units [c] ≠ [] := fun hnil => by simpa [hnil] using head_units_singleton c
        obtain ⟨b, bs, hbs⟩ := List.exists_cons_of_ne_nil hne
        rw [hbs] at hall ⊢
        rw [List.cons_append, List.takeWhile_cons_of_neg (by simp [hall b List.mem_cons_self])]
      | true => rw [List.takeWhile_append_of_pos hall, List.takeWhile_cons_of_pos (hp c hc), ih, ← units_cons]

@[simp] theorem splitAt?_zero (cs : List Char) : splitAt? cs 0 = some ([], cs) := by
  cases cs <;> rfl

/-- A text is cut at the ends of its characters and nowhere else. -/
theorem splitAt?_eq_some_iff {cs front rest : List Char} {n : Nat} :
    splitAt? cs n = some (front, rest) ↔ cs = front ++ rest ∧ byteLength front = n := by
  induction cs generalizing front n with
  | nil =>
    cases n with
    | zero =>
      rw [splitAt?_zero, Option.some.injEq, Prod.mk.injEq]
      constructor
      · rintro ⟨rfl, rfl⟩
        exact ⟨rfl, rfl⟩
      · rintro ⟨hnil, -⟩
        obtain ⟨rfl, rfl⟩ := List.append_eq_nil_iff.1 hnil.symm
        exact ⟨rfl, rfl⟩
    | succ n =>
      refine iff_of_false (by simp [splitAt?]) ?_
      rintro ⟨hnil, hlength⟩
      rw [(List.append_eq_nil_iff.1 hnil.symm).1] at hlength
      contradiction
  | cons c cs ih =>
    have hc := c.utf8Size_pos
    cases front with
    | nil =>
      cases n with
      | zero => simp [byteLength, eq_comm]
      | succ n =>
        refine iff_of_false ?_ fun h => absurd h.2 (Nat.succ_ne_zero n).symm
        rw [splitAt?]
        split <;> simp
    | cons d front =>
      cases n with
      | zero =>
        refine iff_of_false (by simp) fun h => ?_
        have hd := d.utf8Size_pos
        have hlength := h.2
        rw [byteLength] at hlength
        omega
      | succ n =>
        rw [splitAt?, byteLength, List.cons_append, List.cons.injEq]
        split
        · rename_i hle
          simp only [Option.map_eq_some_iff, Prod.mk.injEq, List.cons.injEq]
          constructor
          · rintro ⟨⟨before, behind⟩, hsplit, ⟨rfl, rfl⟩, rfl⟩
            obtain ⟨rfl, hlength⟩ := ih.1 hsplit
            dsimp only
            exact ⟨⟨rfl, rfl⟩, by omega⟩
          · rintro ⟨⟨rfl, rfl⟩, hlength⟩
            exact ⟨(front, rest), ih.2 ⟨rfl, by omega⟩, ⟨rfl, rfl⟩, rfl⟩
        · rename_i hle
          refine iff_of_false (by simp) ?_
          rintro ⟨⟨rfl, -⟩, hlength⟩
          omega

/-- A slice is there if and only if it starts and ends between characters, in this order. -/
theorem slice_eq_ok_iff {cs piece : List Char} {start stop : Nat} :
    slice (ε := ε) cs start stop = .ok piece ↔
      ∃ front rest, cs = front ++ piece ++ rest ∧ byteLength front = start ∧ byteLength (front ++ piece) = stop := by
  rw [slice]
  constructor
  · intro h
    split at h
    · rename_i front piece' hsplit
      cases h
      obtain ⟨⟨both, rest⟩, hboth, hfront⟩ := Option.bind_eq_some_iff.1 hsplit
      obtain ⟨rfl, hstop⟩ := splitAt?_eq_some_iff.1 hboth
      obtain ⟨rfl, hstart⟩ := splitAt?_eq_some_iff.1 hfront
      exact ⟨front, rest, rfl, hstart, hstop⟩
    · contradiction
  · rintro ⟨front, rest, rfl, hstart, hstop⟩
    have hboth : splitAt? (front ++ piece ++ rest) stop = some (front ++ piece, rest) :=
      splitAt?_eq_some_iff.2 ⟨rfl, hstop⟩
    have hfront : splitAt? (front ++ piece) start = some (front, piece) := splitAt?_eq_some_iff.2 ⟨rfl, hstart⟩
    rw [hboth, Option.bind_some, hfront]

example : slice (ε := String) ['é', '!'] 1 3 = .error .crash := by decide

@[simp] theorem offset_self (src : List Char) : offset src src = 0 := Nat.sub_self _

@[simp] theorem offset_nil (src : List Char) : offset src [] = byteLength src := rfl

theorem offset_append (front rest : List Char) : offset (front ++ rest) rest = byteLength front := by
  rw [offset, byteLength_append, Nat.add_sub_cancel]

section Rests

variable {src piece rest : List Char}

theorem offset_add (h : piece ++ rest <:+ src) : offset src (piece ++ rest) + byteLength piece = offset src rest := by
  obtain ⟨front, rfl⟩ := h
  rw [offset_append, ← List.append_assoc, offset_append, byteLength_append]

theorem offset_add_one {c : Char} (hc : isWide c = false) (h : c :: rest <:+ src) :
    offset src (c :: rest) + 1 = offset src rest := by
  have hlength : byteLength [c] = 1 := by rw [← length_units, units_narrow hc]; rfl
  rw [← hlength]
  exact @offset_add src [c] rest h

theorem drop_units_offset (h : rest <:+ src) : (units src).drop (offset src rest) = units rest := by
  obtain ⟨front, rfl⟩ := h
  rw [offset_append, units_append, ← length_units, List.drop_left]

/-- The octet at the start of a rest. -/
theorem getElem?_units_offset (h : rest <:+ src) : (units src)[offset src rest]? = rest.head?.map leadUnit := by
  rw [← List.head?_drop, drop_units_offset h]
  cases rest with
  | nil => rfl
  | cons c rest => exact head_units_cons c rest

theorem octetAt_offset {c : Char} (h : c :: rest <:+ src) :
    octetAt (ε := ε) (units src) (offset src (c :: rest)) = .ok (leadUnit c) := by
  rw [octetAt, getElem?_units_offset h]
  rfl

/-- The slice between two rests is what stands between them. -/
theorem slice_offset (h : piece ++ rest <:+ src) :
    slice (ε := ε) src (offset src (piece ++ rest)) (offset src rest) = .ok piece := by
  obtain ⟨front, rfl⟩ := h
  rw [slice_eq_ok_iff]
  exact ⟨front, rest, by rw [List.append_assoc], (offset_append _ _).symm, by rw [← List.append_assoc, offset_append]⟩

theorem offset_lt_iff (h : rest <:+ src) : offset src rest < byteLength src ↔ rest ≠ [] := by
  obtain ⟨front, rfl⟩ := h
  rw [offset_append, byteLength_append]
  cases rest with
  | nil => simp [byteLength]
  | cons c rest =>
    have := c.utf8Size_pos
    simp only [byteLength, ne_eq, reduceCtorEq, not_false_eq_true, iff_true]
    omega

end Rests

end CloudTemplate.Octets
