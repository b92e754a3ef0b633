import CloudTemplate.Text.Digits
import CloudTemplate.Yaml.Scalar.Gap
/-! Quoted scalars. Between single quotes two quotes stand for one. Between double quotes a backslash
begins an escape: a letter for a character, a hexadecimal number, or a line break that is left out. -/
namespace CloudTemplate.Yaml.Quoted

def escapes : List (Char × Char) :=
  [('0', '\x00'), ('a', '\x07'), ('b', '\x08'), ('t', '\t'), ('\t', '\t'), ('n', '\n'), ('v', '\x0b'),
    ('f', '\x0c'), ('r', '\r'), ('e', '\x1b'), (' ', ' '), ('"', '"'), ('/', '/'), ('\\', '\\'),
    ('N', '\u0085'), ('_', '\u00a0'), ('L', '\u2028'), ('P', '\u2029')]

def digitsAfter (c : Char) : Option Nat :=
  if c = 'x' then some 2 else if c = 'u' then some 4 else if c = 'U' then some 8 else none

def takeEscape (c : Cursor) : Except Fault (Char × Cursor) :=
  match c.rest.drop 1 with
  | [] => .error (c.fault .unknownEscape)
  | letter :: rest =>
    match digitsAfter letter with
    | none =>
      match (escapes.find? fun e => e.1 == letter) with
      | some e => .ok (e.2, c.skip 2)
      | none => .error (c.fault .unknownEscape)
    | some count =>
      let digits := rest.take count
      let c := c.skip 2
      match Text.digits? 16 digits with
      | none => .error (c.fault .hexadecimalDigit)
      | some n =>
        if digits.length < count then .error (c.fault .hexadecimalDigit)
        else if h : n.isValidChar then .ok (Char.ofNatAux n h, c.skip count)
        else .error (c.fault .noCharacter)

/-- Takes characters up to a gap, the closing quote or an escaped line break, and says whether there is
such a line break, which is then passed. -/
def takeWord (quote : Char) (c : Cursor) : Nat → Except Fault (List Char × Bool × Cursor)
  | 0 => .ok ([], false, c)
  | steps + 1 =>
    let take (ch : Char) (c : Cursor) : Except Fault (List Char × Bool × Cursor) :=
      (takeWord quote c steps).map fun (cs, escaped, c) => (ch :: cs, escaped, c)
    match c.rest with
    | [] => .ok ([], false, c)
    | ch :: rest =>
      if Text.isGap ch || isBreak ch then .ok ([], false, c)
      else if ch = quote then
        if quote = '\'' && rest.head? = some '\'' then take '\'' (c.skip 2) else .ok ([], false, c)
      else if quote = '"' && ch = '\\' then
        if rest.head?.any isBreak then .ok ([], true, (c.skip 1).skipBreak)
        else
          match takeEscape c with
          | .error fault => .error fault
          | .ok (escaped, c) => take escaped c
      else take ch (c.skip 1)

def takeWords (quote : Char) (c : Cursor) : Nat → Except Fault (List Char × Cursor)
  | 0 => .error (c.fault .openQuotes)
  | steps + 1 =>
    if c.atDocumentMarker then .error (c.fault .markerInQuotes)
    else if c.rest.isEmpty then .error (c.fault .openQuotes)
    else do
      let (word, escaped, c) ← takeWord quote c c.rest.length
      if c.atChar quote then return (word, c.skip 1)
      let (gap, c) ← (if escaped then Gap.escaped else Gap.none).take 0 c c.rest.length
      let (text, c) ← takeWords quote c steps
      return (word ++ gap.text ++ text, c)

def read (quote : Char) (c : Cursor) : Except Fault (List Char × Cursor) :=
  let c := c.skip 1
  takeWords quote c (c.rest.length + 1)

end CloudTemplate.Yaml.Quoted
