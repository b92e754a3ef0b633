import CloudTemplate.Text.Blank
import CloudTemplate.Text.Digits
/-! Texts and keys in TOML. A text stands between double quotes, with escapes, or between single quotes,
without any; between three quotes of either kind it may have several lines. -/
namespace CloudTemplate.Toml

def isPlain (c : Char) : Bool := c == '\t' || (32 ≤ c.toNat && c.toNat != 127)

def skipBlanks (cs : List Char) : List Char := cs.dropWhile Text.isGap

def takeBreak : List Char → Option (List Char)
  | '\n' :: rest => some rest
  | '\r' :: '\n' :: rest => some rest
  | _ => none

abbrev Taken := Option (List Char × List Char)

def Taken.prepend (cs : List Char) (taken : Taken) : Taken := taken.map fun t => (cs ++ t.1, t.2)

def escapes : List (Char × Char) :=
  [('b', '\x08'), ('t', '\t'), ('n', '\n'), ('f', '\x0c'), ('r', '\r'), ('"', '"'), ('\\', '\\')]

def takeNumber (count : Nat) (cs : List Char) : Option (Char × List Char) :=
  if cs.length < count then none
  else
    (Text.digits? 16 (cs.take count)).bind fun n =>
      if h : n.isValidChar then some (Char.ofNatAux n h, cs.drop count) else none

def takeEscape : List Char → Option (Char × List Char)
  | 'u' :: rest => takeNumber 4 rest
  | 'U' :: rest => takeNumber 8 rest
  | c :: rest => (escapes.find? fun e => e.1 == c).map fun e => (e.2, rest)
  | [] => none

def takeLine (quote : Char) (cs : List Char) : Nat → Taken
  | 0 => none
  | steps + 1 =>
    match cs with
    | [] => none
    | c :: rest =>
      if c = quote then some ([], rest)
      else if quote = '"' && c = '\\' then
        (takeEscape rest).bind fun (c, rest) => (takeLine quote rest steps).prepend [c]
      else if isPlain c then (takeLine quote rest steps).prepend [c]
      else none

def skipSpace : List Char → List Char
  | '\r' :: '\n' :: rest => skipSpace rest
  | c :: rest => if Text.isGap c || c == '\n' then skipSpace rest else c :: rest
  | [] => []

def skipLineEnd (cs : List Char) : Option (List Char) := (takeBreak (skipBlanks cs)).map skipSpace

def takeLines (quote : Char) (cs : List Char) : Nat → Taken
  | 0 => none
  | steps + 1 =>
    match cs with
    | [] => none
    | c :: rest =>
      if c = quote then
        let run := cs.takeWhile (· == quote)
        if 3 ≤ run.length then
          let inner := min (run.length - 3) 2
          some (run.take inner, cs.drop (inner + 3))
        else (takeLines quote (cs.drop run.length) steps).prepend run
      else if quote = '"' && c = '\\' then
        match skipLineEnd rest with
        | some rest => takeLines quote rest steps
        | none => (takeEscape rest).bind fun (c, rest) => (takeLines quote rest steps).prepend [c]
      else
        match takeBreak cs with
        | some rest => (takeLines quote rest steps).prepend ['\n']
        | none => if isPlain c then (takeLines quote rest steps).prepend [c] else none

def takeText (cs : List Char) : Taken :=
  match cs with
  | '"' :: '"' :: '"' :: rest => takeLines '"' ((takeBreak rest).getD rest) (cs.length + 1)
  | '\'' :: '\'' :: '\'' :: rest => takeLines '\'' ((takeBreak rest).getD rest) (cs.length + 1)
  | '"' :: rest => takeLine '"' rest (cs.length + 1)
  | '\'' :: rest => takeLine '\'' rest (cs.length + 1)
  | _ => none

def isBareChar (c : Char) : Bool := c.isAlphanum || c == '_' || c == '-'

def takePart (cs : List Char) : Taken :=
  match cs with
  | '"' :: rest => takeLine '"' rest (cs.length + 1)
  | '\'' :: rest => takeLine '\'' rest (cs.length + 1)
  | _ =>
    let name := cs.takeWhile isBareChar
    if name.isEmpty then none else some (name, cs.drop name.length)

def takeKey (cs : List Char) : Nat → Option (List String × List Char)
  | 0 => none
  | steps + 1 =>
    (takePart (skipBlanks cs)).bind fun (part, rest) =>
      match skipBlanks rest with
      | '.' :: rest => (takeKey rest steps).map fun (parts, rest) => (String.ofList part :: parts, rest)
      | rest => some ([String.ofList part], rest)

end CloudTemplate.Toml
