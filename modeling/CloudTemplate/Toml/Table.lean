import CloudTemplate.Toml.Quoted
import CloudTemplate.Tree
/-! Tables of lists of texts in TOML, which are read from two levels of keys. A table is written under a
header, between braces, or through keys with a point; all else that TOML may hold is no such table. -/
namespace CloudTemplate.Toml

abbrev Table := Entries (Entries (List String))

def skipComment : List Char → List Char
  | '#' :: rest => rest.dropWhile isPlain
  | cs => cs

def takeLineEnd (cs : List Char) : Option (List Char) :=
  match skipComment (skipBlanks cs) with
  | [] => some []
  | rest => takeBreak rest

def skipLines (cs : List Char) : Nat → List Char
  | 0 => cs
  | steps + 1 =>
    match takeBreak (skipComment (skipBlanks cs)) with
    | some rest => skipLines rest steps
    | none => skipBlanks cs

def takeItems (cs : List Char) : Nat → Option (List String × List Char)
  | 0 => none
  | steps + 1 =>
    match skipLines cs (cs.length + 1) with
    | ']' :: rest => some ([], rest)
    | cs =>
      (takeText cs).bind fun (text, rest) =>
        match skipLines rest (rest.length + 1) with
        | ',' :: rest =>
          (takeItems rest steps).map fun (items, rest) => (String.ofList text :: items, rest)
        | ']' :: rest => some ([String.ofList text], rest)
        | _ => none

def takeList (cs : List Char) : Option (List String × List Char) :=
  match skipBlanks cs with
  | '[' :: rest => takeItems rest (rest.length + 1)
  | _ => none

def takeSign (sign : Char) (cs : List Char) : Option (List Char) :=
  match skipBlanks cs with
  | [] => none
  | c :: rest => if c = sign then some rest else none

def addNew {α : Type} (entries : Entries α) (key : String) (value : α) : Option (Entries α) :=
  if entries.contains key then none else some (entries.insert key value)

def takeFields (entries : Entries (List String)) (cs : List Char) :
    Nat → Option (Entries (List String) × List Char)
  | 0 => none
  | steps + 1 => do
    let (key, cs) ← takeKey cs (cs.length + 1)
    let [name] := key | none
    let cs ← takeSign '=' cs
    let (items, cs) ← takeList cs
    let entries ← addNew entries name items
    match skipBlanks cs with
    | ',' :: rest => takeFields entries rest steps
    | '\x7d' :: rest => return (entries, rest)
    | _ => none

def takeInlineTable (cs : List Char) : Option (Entries (List String) × List Char) := do
  let cs ← takeSign '\x7b' cs
  match skipBlanks cs with
  | '\x7d' :: rest => return ([], rest)
  | cs => takeFields [] cs (cs.length + 1)

structure State where
  table : Table
  opened : List String
  current : Option String

def State.addThrough (s : State) (outer inner : String) (items : List String) : Option State :=
  match s.table.get? outer with
  | none => some { s with table := s.table.insert outer [(inner, items)], opened := outer :: s.opened }
  | some entries =>
    if s.opened.contains outer then
      (addNew entries inner items).map fun entries => { s with table := s.table.insert outer entries }
    else none

def takeEntry (s : State) (cs : List Char) : Option (State × List Char) := do
  let (key, cs) ← takeKey cs (cs.length + 1)
  let cs ← takeSign '=' cs
  match s.current, key with
  | none, [name] => do
    let (entries, cs) ← takeInlineTable cs
    return ({ s with table := ← addNew s.table name entries }, cs)
  | none, [outer, inner] => do
    let (items, cs) ← takeList cs
    return (← s.addThrough outer inner items, cs)
  | some header, [name] => do
    let (items, cs) ← takeList cs
    let entries ← addNew ((s.table.get? header).getD []) name items
    return ({ s with table := s.table.insert header entries }, cs)
  | _, _ => none

def takeHeader (s : State) (cs : List Char) : Option (State × List Char) := do
  let (key, cs) ← takeKey cs (cs.length + 1)
  let [name] := key | none
  let cs ← takeSign ']' cs
  return ({ s with table := ← addNew s.table name [], current := some name }, cs)

def readLines (s : State) (cs : List Char) : Nat → Option Table
  | 0 => none
  | steps + 1 =>
    match skipBlanks cs with
    | [] => some s.table
    | c :: rest => do
      let (s, cs) ←
        if c = '[' then takeHeader s rest
        else if (takeLineEnd (c :: rest)).isSome then pure (s, c :: rest)
        else takeEntry s (c :: rest)
      readLines s (← takeLineEnd cs) steps

def readTable (text : String) : Option Table :=
  let cs := match text.toList with
    | '\uFEFF' :: cs => cs
    | cs => cs
  readLines ⟨[], [], none⟩ cs (cs.length + 1)

end CloudTemplate.Toml
