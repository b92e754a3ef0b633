/-! Octets read as UTF-8. Reading stops at the first octet that no character can hold and says where
it stands and how many octets the broken character takes. -/
namespace CloudTemplate.Text

def octets (text : String) : List UInt8 := text.toUTF8.toList

/-- What makes octets unreadable: `validUpTo` octets are sound, and the `width` octets that follow
them begin no character; without a width the octets end inside a character. -/
structure Utf8Fault where
  validUpTo : Nat
  width : Option Nat
  deriving DecidableEq, Repr

def Utf8Fault.message (fault : Utf8Fault) : String :=
  match fault.width with
  | some n => s!"invalid utf-8 sequence of {n} bytes from index {fault.validUpTo}"
  | none => s!"incomplete utf-8 byte sequence from index {fault.validUpTo}"

def isTail (b : UInt8) : Bool := 0x80 ≤ b && b ≤ 0xBF

/-- Whether an octet may follow a character's first octet: overlong forms, surrogates and numbers
past the last character are shut out here. -/
def isSecond (first b : UInt8) : Bool :=
  if first == 0xE0 then 0xA0 ≤ b && b ≤ 0xBF
  else if first == 0xED then 0x80 ≤ b && b ≤ 0x9F
  else if first == 0xF0 then 0x90 ≤ b && b ≤ 0xBF
  else if first == 0xF4 then 0x80 ≤ b && b ≤ 0x8F
  else isTail b

def characterWidth (first : UInt8) : Option Nat :=
  if first < 0x80 then some 1
  else if 0xC2 ≤ first && first ≤ 0xDF then some 2
  else if 0xE0 ≤ first && first ≤ 0xEF then some 3
  else if 0xF0 ≤ first && first ≤ 0xF4 then some 4
  else none

def tailBits (b : UInt8) : Nat := b.toNat % 64

def takeCharacter (first : UInt8) (rest : List UInt8) : Except (Option Nat) (Char × List UInt8) :=
  match characterWidth first with
  | some 1 => .ok (Char.ofNat first.toNat, rest)
  | some 2 =>
    match rest with
    | [] => .error none
    | b :: rest =>
      if isTail b then .ok (Char.ofNat (first.toNat % 32 * 64 + tailBits b), rest) else .error (some 1)
  | some 3 =>
    match rest with
    | [] => .error none
    | b :: rest =>
      if !isSecond first b then .error (some 1) else
      match rest with
      | [] => .error none
      | c :: rest =>
        if isTail c then
          .ok (Char.ofNat (first.toNat % 16 * 4096 + tailBits b * 64 + tailBits c), rest)
        else .error (some 2)
  | some 4 =>
    match rest with
    | [] => .error none
    | b :: rest =>
      if !isSecond first b then .error (some 1) else
      match rest with
      | [] => .error none
      | c :: rest =>
        if !isTail c then .error (some 2) else
        match rest with
        | [] => .error none
        | d :: rest =>
          if isTail d then
            .ok (Char.ofNat (first.toNat % 8 * 262144 + tailBits b * 4096 + tailBits c * 64 + tailBits d),
              rest)
          else .error (some 3)
  | _ => .error (some 1)

theorem takeCharacter_length {first : UInt8} {rest after : List UInt8} {c : Char}
    (h : takeCharacter first rest = .ok (c, after)) : after.length ≤ rest.length := by
  unfold takeCharacter at h
  repeat' split at h
  all_goals first
    | contradiction
    | (simp only [Except.ok.injEq, Prod.mk.injEq] at h; obtain ⟨_, rfl⟩ := h; simp <;> omega)

def readUtf8From (index : Nat) : List UInt8 → Except Utf8Fault (List Char)
  | [] => .ok []
  | first :: rest =>
    match h : takeCharacter first rest with
    | .error width => .error ⟨index, width⟩
    | .ok (c, after) =>
      have := takeCharacter_length h
      match readUtf8From (index + (characterWidth first).getD 1) after with
      | .error fault => .error fault
      | .ok cs => .ok (c :: cs)
termination_by bytes => bytes.length

def readUtf8 (bytes : List UInt8) : Except Utf8Fault (List Char) := readUtf8From 0 bytes

def readUtf8Lossy : List UInt8 → List Char
  | [] => []
  | first :: rest =>
    match h : takeCharacter first rest with
    | .error _ => '\uFFFD' :: readUtf8Lossy rest
    | .ok (c, after) =>
      have := takeCharacter_length h
      c :: readUtf8Lossy after
termination_by bytes => bytes.length

def leadOctet (c : Char) : Nat :=
  let n := c.toNat
  if n < 0x80 then n
  else if n < 0x800 then 0xC0 + n / 64
  else if n < 0x10000 then 0xE0 + n / 4096
  else 0xF0 + n / 262144

end CloudTemplate.Text
