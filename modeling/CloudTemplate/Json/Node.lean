import CloudTemplate.Json.Fault
import CloudTemplate.Text.Blank
import CloudTemplate.Text.Digits
import CloudTemplate.Text.Utf8
/-! JSON documents as they stand in their text. A node keeps the places that a report needs, and a
document that breaks off is kept up to the break, so that a reader that goes through it in order meets
the first thing that is wrong. There are two ways to go through a node: strictly, for its value, and
leniently, to pass over it; the second lets numbers out of range and lone surrogates through. -/
namespace CloudTemplate.Json

structure Break where
  strict : Fault
  lenient : Fault

structure Label where
  name : Except Fault String
  after : Option Nat

structure Cursor where
  rest : List Char
  offset : Nat

namespace Cursor

def ofText (cs : List Char) : Cursor := ⟨cs, 0⟩

def advance (c : Cursor) : Cursor :=
  match c.rest with
  | [] => c
  | ch :: rest => ⟨rest, c.offset + ch.utf8Size⟩

def skip (n : Nat) (c : Cursor) : Cursor := ⟨c.rest.drop n, c.offset + Text.byteLength (c.rest.take n)⟩

def isJsonBlank (ch : Char) : Bool := ch == ' ' || ch == '\n' || ch == '\t' || ch == '\r'

def skipBlanks (c : Cursor) : Cursor := c.skip (c.rest.takeWhile isJsonBlank).length

def ahead (c : Cursor) : Nat := if c.rest.isEmpty then c.offset else c.offset + 1

def faultHere (c : Cursor) (cause : Cause) : Fault := ⟨cause, some c.offset⟩

def faultAhead (c : Cursor) (cause : Cause) : Fault := ⟨cause, some c.ahead⟩

end Cursor

/-- Values with where they start and the places where they stop. A node that comes from no text has
neither. -/
inductive Node where
  | null (start : Option Cursor) (stop : Option Nat)
  | bool (value : Bool) (start : Option Cursor) (stop : Option Nat)
  | number (value : Except Fault CloudTemplate.Number) (start : Option Cursor) (stop : Option Nat)
  | string (value : Except Fault String) (start : Option Cursor) (stop : Option Nat)
  | array (start : Option Cursor) (items : List Node) (stop : Except Break (Option Nat))
  | object (start : Option Cursor) (entries : List (Label × Node)) (stop : Except Break (Option Nat))
  | broken (start : Option Cursor) (fault : Break)

def Node.start : Node → Option Cursor
  | .null start _ | .bool _ start _ | .number _ start _ | .string _ start _ => start
  | .array start _ _ | .object start _ _ | .broken start _ => start

def Node.place (n : Node) : Option Nat := n.start.map Cursor.offset

def Break.same (fault : Fault) : Break := ⟨fault, fault⟩

def readWord : List Char → Cursor → Except Fault Cursor
  | [], c => .ok c
  | letter :: word, c =>
    match c.rest with
    | [] => .error (c.faultHere .endInValue)
    | ch :: _ => if ch = letter then readWord word c.advance else .error (c.faultAhead .expectedWord)

def greatestWord : Nat := Number.twoTo 64 - 1

def greatestExponent : Nat := Number.twoTo 31 - 1

def gather (n : Nat) : List Char → Nat × Nat
  | [] => (n, 0)
  | d :: ds =>
    let next := n * 10 + Number.digitValue d
    if greatestWord < next then (n, ds.length + 1) else gather next ds

def powerOfTen (n : Nat) : Number.Binary64 := (Number.Binary64.round false (Number.tenTo n) 1).getD (.zero false)

/-- A number times a power of ten, rounded after the digits and after each factor. Powers below the
range are divided out in steps; nothing is left when the number grows too large. -/
def scale (x : Number.Binary64) (e : Int) : Nat → Option Number.Binary64
  | 0 => some x
  | steps + 1 =>
    if e.natAbs ≤ 308 then
      if 0 ≤ e then x.mul (powerOfTen e.natAbs) else x.div (powerOfTen e.natAbs)
    else if x.isZero then some x
    else if 0 ≤ e then none
    else (x.div (powerOfTen 308)).bind fun x => scale x (e + 308) steps

def ofParts (negative : Bool) (digits : Nat) (e : Int) : Option Number.Binary64 :=
  ((Number.Binary64.round false digits 1).bind fun x => scale x e 4).map
    fun x => if negative then x.negate else x

structure Numerals where
  negative : Bool
  whole : List Char
  part : List Char
  exponent : Option (Bool × List Char × Cursor)

def Numerals.significand (n : Numerals) : Nat × Int :=
  let (whole, excess) := gather 0 n.whole
  let (digits, dropped) := gather whole n.part
  (digits, (excess : Int) - ((n.part.length : Int) - dropped))

def fittingDigits (n : Nat) : List Char → Nat
  | [] => 0
  | d :: ds =>
    let next := n * 10 + Number.digitValue d
    if greatestExponent < next then 0 else 1 + fittingDigits next ds

/-- The value of a number that ends at a place: a whole number if it is written as one and fits into
64 bits, with a sign or without. -/
def Numerals.value (n : Numerals) (stop : Cursor) : Except Fault CloudTemplate.Number :=
  let (digits, scaling) := n.significand
  let real (e : Int) : Except Fault CloudTemplate.Number :=
    match ofParts n.negative digits e with
    | some x => .ok (.real x)
    | none => .error (stop.faultHere .numberOutOfRange)
  match n.exponent with
  | some (below, run, c) =>
    let e := Number.ofDigits run
    if e ≤ greatestExponent then real (if below then scaling - e else scaling + e)
    else if digits = 0 || below then .ok (.real (.zero n.negative))
    else .error ((c.skip (fittingDigits 0 run + 1)).faultHere .numberOutOfRange)
  | none =>
    if !n.part.isEmpty || 0 < scaling then real scaling
    else if !n.negative then .ok (.integer digits)
    else if 0 < digits && digits ≤ Number.twoTo 63 then .ok (.integer (-(digits : Int)))
    else real 0

def missingDigit (c : Cursor) : Break :=
  ⟨c.faultAhead (if c.rest.isEmpty then .endInValue else .invalidNumber), c.faultAhead .invalidNumber⟩

def readExponent (n : Numerals) (c : Cursor) : Except Break (Numerals × Cursor) :=
  match c.rest with
  | e :: _ =>
    if e != 'e' && e != 'E' then .ok (n, c)
    else
      let c := c.advance
      let (below, c) := match c.rest with
        | '+' :: _ => (false, c.advance)
        | '-' :: _ => (true, c.advance)
        | _ => (false, c)
      let run := c.rest.takeWhile Char.isDigit
      if run.isEmpty then .error (missingDigit c)
      else .ok ({ n with exponent := some (below, run, c) }, c.skip run.length)
  | [] => .ok (n, c)

def readFraction (n : Numerals) (c : Cursor) : Except Break (Numerals × Cursor) :=
  match c.rest with
  | '.' :: _ =>
    let c := c.advance
    let part := c.rest.takeWhile Char.isDigit
    if part.isEmpty then .error (missingDigit c)
    else readExponent { n with part := part } (c.skip part.length)
  | _ => readExponent n c

def readNumerals (c : Cursor) : Except Break (Numerals × Cursor) :=
  let (negative, c) := match c.rest with
    | '-' :: _ => (true, c.advance)
    | _ => (false, c)
  let run := c.rest.takeWhile Char.isDigit
  match run with
  | [] => .error (missingDigit c)
  | '0' :: _ :: _ => .error (.same (c.advance.faultAhead .invalidNumber))
  | _ => readFraction ⟨negative, run, [], none⟩ (c.skip run.length)

def readHex (c : Cursor) : Except Fault (Nat × Cursor) :=
  if Text.byteLength c.rest < 4 then
    .error ⟨.endInString, some (c.offset + Text.byteLength c.rest)⟩
  else
    match Text.digits? 16 (c.rest.take 4) with
    | some n => .ok (n, c.skip 4)
    | none => .error ⟨.invalidEscape, some (c.offset + 4)⟩

def readSecondSurrogate (high : Nat) (c : Cursor) : Except Fault (Char × Cursor) :=
  match c.rest with
  | [] => .error (c.faultHere .endInString)
  | '\\' :: 'u' :: _ =>
    match readHex (c.skip 2) with
    | .error fault => .error fault
    | .ok (low, c) =>
      if 0xDC00 ≤ low && low ≤ 0xDFFF then
        .ok (Char.ofNat ((high - 0xD800) * 1024 + (low - 0xDC00) + 0x10000), c)
      else .error (c.faultHere .loneSurrogate)
  | ['\\'] => .error (c.advance.faultHere .endInString)
  | '\\' :: _ => .error (c.advance.faultAhead .unfinishedSurrogates)
  | _ => .error (c.faultAhead .unfinishedSurrogates)

def readEscape (strict : Bool) (c : Cursor) : Except Fault (Char × Cursor) :=
  match c.rest with
  | [] => .error (c.faultHere .endInString)
  | '"' :: _ => .ok ('"', c.advance)
  | '\\' :: _ => .ok ('\\', c.advance)
  | '/' :: _ => .ok ('/', c.advance)
  | 'b' :: _ => .ok ('\x08', c.advance)
  | 'f' :: _ => .ok ('\x0c', c.advance)
  | 'n' :: _ => .ok ('\n', c.advance)
  | 'r' :: _ => .ok ('\r', c.advance)
  | 't' :: _ => .ok ('\t', c.advance)
  | 'u' :: _ =>
    match readHex c.advance with
    | .error fault => .error fault
    | .ok (n, c) =>
      if !strict || n < 0xD800 || 0xDFFF < n then .ok (Char.ofNat n, c)
      else if 0xDC00 ≤ n then .error (c.faultHere .loneSurrogate)
      else readSecondSurrogate n c
  | _ => .error (c.faultAhead .invalidEscape)

def readCharacters (strict : Bool) (seen : List Char) (c : Cursor) : Nat → Except Fault (String × Cursor)
  | 0 => .error (c.faultHere .endInString)
  | fuel + 1 =>
    match c.rest with
    | [] => .error (c.faultHere .endInString)
    | '"' :: _ => .ok (String.ofList seen.reverse, c.advance)
    | '\\' :: _ =>
      match readEscape strict c.advance with
      | .error fault => .error fault
      | .ok (ch, c) => readCharacters strict (ch :: seen) c fuel
    | ch :: _ =>
      if ch.toNat < 32 then
        .error (if strict then c.faultAhead .controlCharacter else c.faultHere .controlCharacter)
      else readCharacters strict (ch :: seen) c.advance fuel

def readString (strict : Bool) (c : Cursor) : Except Fault (String × Cursor) :=
  readCharacters strict [] c (c.rest.length + 1)

/-- A string after its opening quote. When it is sound enough to pass over, its text is kept even if
that is a fault. -/
def readText (c : Cursor) : Except Break (Except Fault String × Cursor) :=
  match readString false c, readString true c with
  | .ok (_, stop), strict => .ok (strict.map Prod.fst, stop)
  | .error lenient, .error strict => .error ⟨strict, lenient⟩
  | .error lenient, .ok _ => .error (.same lenient)

def readConstant (c : Cursor) (word : List Char) (node : Option Nat → Node) : Node × Option Cursor :=
  match readWord word c with
  | .ok stop => (node (some stop.offset), some stop)
  | .error fault => (.broken (some c) (.same fault), none)

mutual

def readValue (c : Cursor) : Nat → Node × Option Cursor
  | 0 => (.broken (some c) (.same (c.faultHere .endInValue)), none)
  | fuel + 1 =>
    let c := c.skipBlanks
    let start := some c
    match c.rest with
    | [] => (.broken start (.same (c.faultAhead .endInValue)), none)
    | 'n' :: _ => readConstant c ['n', 'u', 'l', 'l'] (.null start)
    | 't' :: _ => readConstant c ['t', 'r', 'u', 'e'] (.bool true start)
    | 'f' :: _ => readConstant c ['f', 'a', 'l', 's', 'e'] (.bool false start)
    | '"' :: _ =>
      match readText c.advance with
      | .error b => (.broken start b, none)
      | .ok (s, stop) => (.string s start (some stop.offset), some stop)
    | '[' :: _ =>
      let (items, stop, after) := readItems c.advance true fuel
      (.array start items stop, after)
    | '\x7b' :: _ =>
      let (entries, stop, after) := readEntries c.advance true fuel
      (.object start entries stop, after)
    | ch :: _ =>
      if ch = '-' || ch.isDigit then
        match readNumerals c with
        | .error b => (.broken start b, none)
        | .ok (n, stop) => (.number (n.value stop) start (some stop.offset), some stop)
      else (.broken start (.same (c.faultAhead .expectedValue)), none)

def readItems (c : Cursor) (first : Bool) : Nat →
    List Node × Except Break (Option Nat) × Option Cursor
  | 0 => ([], .error (.same (c.faultHere .endInList)), none)
  | fuel + 1 =>
    let c := c.skipBlanks
    let item (c : Cursor) :=
      match readValue c fuel with
      | (node, none) => ([node], .error (.same (c.faultHere .endInList)), none)
      | (node, some c) =>
        let (items, stop, after) := readItems c false fuel
        (node :: items, stop, after)
    match c.rest with
    | [] => ([], .error (.same (c.faultAhead .endInList)), none)
    | ']' :: _ => ([], .ok (some c.advance.offset), some c.advance)
    | ch :: _ =>
      if first then item c
      else if ch != ',' then ([], .error (.same (c.faultAhead .expectedListEnd)), none)
      else
        let c := c.advance.skipBlanks
        match c.rest with
        | [] => ([], .error (.same (c.faultAhead .endInValue)), none)
        | ']' :: _ => ([], .error ⟨c.faultAhead .trailingComma, c.faultAhead .expectedValue⟩, none)
        | _ => item c

def readEntries (c : Cursor) (first : Bool) : Nat →
    List (Label × Node) × Except Break (Option Nat) × Option Cursor
  | 0 => ([], .error (.same (c.faultHere .endInObject)), none)
  | fuel + 1 =>
    let c := c.skipBlanks
    let entry (c : Cursor) :=
      match readText c.advance with
      | .error b => ([], .error b, none)
      | .ok (name, c) =>
        let c := c.skipBlanks
        match c.rest with
        | ':' :: _ =>
          let label : Label := ⟨name, some c.offset⟩
          match readValue c.advance fuel with
          | (node, none) => ([(label, node)], .error (.same (c.faultHere .endInObject)), none)
          | (node, some c) =>
            let (entries, stop, after) := readEntries c false fuel
            ((label, node) :: entries, stop, after)
        | rest =>
          let fault := c.faultAhead (if rest.isEmpty then .endInObject else .expectedColon)
          let after := if rest.head? = some '\x7d' then c.ahead else c.offset
          ([(⟨name, some after⟩, .broken (some c) (.same fault))], .error (.same fault), none)
    match c.rest with
    | [] => ([], .error (.same (c.faultAhead .endInObject)), none)
    | '\x7d' :: _ => ([], .ok (some c.advance.offset), some c.advance)
    | ch :: _ =>
      if first then
        if ch = '"' then entry c else ([], .error (.same (c.faultAhead .keyNotString)), none)
      else if ch != ',' then ([], .error (.same (c.faultAhead .expectedObjectEnd)), none)
      else
        let c := c.advance.skipBlanks
        match c.rest with
        | [] => ([], .error ⟨c.faultAhead .endInValue, c.faultAhead .endInObject⟩, none)
        | '"' :: _ => entry c
        | '\x7d' :: _ => ([], .error ⟨c.faultAhead .trailingComma, c.faultAhead .keyNotString⟩, none)
        | _ => ([], .error (.same (c.faultAhead .keyNotString)), none)

end

/-- The value that comes next. The steps are enough, since a value inside another lies two steps further
down and at least one character further on. -/
def readNext (c : Cursor) : Node × Option Cursor := readValue c (2 * c.rest.length + 2)

structure Document where
  root : Node
  ending : Except Fault Unit

def Document.read (text : List Char) : Document :=
  match readNext (.ofText text) with
  | (root, none) => ⟨root, .ok ()⟩
  | (root, some c) =>
    let c := c.skipBlanks
    ⟨root, if c.rest.isEmpty then .ok () else .error (c.faultAhead .trailingCharacters)⟩

def lenientStop (stop : Except Break (Option Nat)) : Except Fault Unit :=
  match stop with
  | .ok _ => .ok ()
  | .error b => .error b.lenient

mutual

def Node.pass : Node → Except Fault Unit
  | .array _ items stop => do passItems items; lenientStop stop
  | .object _ entries stop => do passEntries entries; lenientStop stop
  | .broken _ b => .error b.lenient
  | _ => .ok ()
termination_by structural n => n

def passItems : List Node → Except Fault Unit
  | [] => .ok ()
  | n :: rest => do n.pass; passItems rest
termination_by structural ns => ns

def passEntries : List (Label × Node) → Except Fault Unit
  | [] => .ok ()
  | (_, n) :: rest => do n.pass; passEntries rest
termination_by structural es => es

end

def strictStop (stop : Except Break (Option Nat)) : Except Fault (Option Nat) :=
  match stop with
  | .ok place => .ok place
  | .error b => .error b.strict

def depthLimit : Nat := 128

def tooDeep (start : Option Cursor) : Fault := ⟨.tooDeep, start.map fun c => c.offset + 1⟩

mutual

def Node.tree (depth : Nat) : Node → Except Fault Tree
  | .null _ _ => .ok .null
  | .bool b _ _ => .ok (.bool b)
  | .number n _ _ => n.map .number
  | .string s _ _ => s.map .string
  | .array start items stop =>
    if depth ≤ 1 then .error (tooDeep start) else do
      let items ← treeItems (depth - 1) items
      let _ ← strictStop stop
      return .array items
  | .object start entries stop =>
    if depth ≤ 1 then .error (tooDeep start) else do
      let entries ← treeEntries (depth - 1) [] entries
      let _ ← strictStop stop
      return .object entries
  | .broken _ b => .error b.strict
termination_by structural n => n

def treeItems (depth : Nat) : List Node → Except Fault (List Tree)
  | [] => .ok []
  | n :: rest => do
    let t ← n.tree depth
    let ts ← treeItems depth rest
    return t :: ts
termination_by structural ns => ns

def treeEntries (depth : Nat) (seen : Entries Tree) : List (Label × Node) → Except Fault (Entries Tree)
  | [] => .ok seen
  | (label, n) :: rest => do
    let name ← label.name
    let t ← n.tree depth
    treeEntries depth (seen.insert name t) rest
termination_by structural es => es

end

mutual

def Node.ofTree : Tree → Node
  | .null => .null none none
  | .bool b => .bool b none none
  | .number n => .number (.ok n) none none
  | .string s => .string (.ok s) none none
  | .array items => .array none (nodesOfItems items) (.ok none)
  | .object entries => .object none (nodesOfEntries entries) (.ok none)
termination_by structural t => t

def nodesOfItems : List Tree → List Node
  | [] => []
  | t :: rest => Node.ofTree t :: nodesOfItems rest
termination_by structural ts => ts

def nodesOfEntries : List (String × Tree) → List (Label × Node)
  | [] => []
  | (key, t) :: rest => (⟨.ok key, none⟩, Node.ofTree t) :: nodesOfEntries rest
termination_by structural es => es

end

def readWith {α : Type} (decode : Node → Except Fault α) (text : String) : Except Located α :=
  let document := Document.read text.toList
  let result := do
    let value ← decode document.root
    document.ending
    return value
  match result with
  | .ok value => .ok value
  | .error fault => .error (fault.locate (Text.octets text))

def readTree (text : String) : Except Located Tree := readWith (Node.tree depthLimit) text

def isNotation (bytes : List UInt8) : Bool :=
  let document := Document.read (Text.readUtf8Lossy bytes)
  match document.root.pass, document.ending with
  | .ok _, .ok _ => true
  | _, _ => false

end CloudTemplate.Json
