import CloudTemplate.Number.Binary64
/-! Trees of values, as templates and specifications hold them. The entries of an object keep the order
in which they were written; a key that is written again keeps its place and takes the new value. -/
namespace CloudTemplate

inductive Number where
  | integer (value : Int)
  | real (value : Number.Binary64)
  deriving DecidableEq, Repr

def Number.text : Number → String
  | .integer n => toString n
  | .real x => x.text

inductive Tree where
  | null
  | bool (value : Bool)
  | number (value : Number)
  | string (value : String)
  | array (items : List Tree)
  | object (entries : List (String × Tree))
  deriving Repr, Inhabited

abbrev Entries (α : Type) := List (String × α)

namespace Entries

variable {α : Type}

def get? (entries : Entries α) (key : String) : Option α :=
  (entries.find? fun e => e.1 == key).map Prod.snd

def keys (entries : Entries α) : List String := entries.map Prod.fst

def contains (entries : Entries α) (key : String) : Bool := entries.any fun e => e.1 == key

def insert (entries : Entries α) (key : String) (value : α) : Entries α :=
  match entries with
  | [] => [(key, value)]
  | e :: rest => if e.1 == key then (key, value) :: rest else e :: insert rest key value

def erase (entries : Entries α) (key : String) : Entries α := entries.filter fun e => e.1 != key

def ofList (entries : List (String × α)) : Entries α :=
  entries.foldl (fun all e => insert all e.1 e.2) []

theorem get?_cons (e : String × α) (entries : Entries α) (key : String) :
    get? (e :: entries) key = if e.1 = key then some e.2 else get? entries key := by
  rw [get?, List.find?_cons]
  by_cases h : e.1 = key
  · simp [h]
  · rw [beq_false_of_ne h, if_neg h, get?]

theorem get?_insert (entries : Entries α) (key other : String) (value : α) :
    get? (insert entries key value) other = if key = other then some value else get? entries other := by
  induction entries with
  | nil => rw [insert, get?_cons]
  | cons e rest ih =>
    rw [insert]
    by_cases h : e.1 = key
    · rw [if_pos (beq_iff_eq.2 h), get?_cons, get?_cons, h]
      split <;> rfl
    · rw [if_neg (by simp [h]), get?_cons, get?_cons, ih]
      split
      · rename_i heq
        rw [if_neg (fun hkey => h (heq.trans hkey.symm))]
      · rfl

theorem contains_iff_mem_keys (entries : Entries α) (key : String) :
    contains entries key = true ↔ key ∈ keys entries := by
  simp only [contains, keys, List.any_eq_true, beq_iff_eq, List.mem_map]

/-- A key keeps its place, and a new one comes last. -/
theorem get?_eq_none_iff {entries : Entries α} {key : String} : entries.get? key = none ↔ key ∉ entries.keys := by
  simp only [get?, keys, Option.map_eq_none_iff, List.find?_eq_none, beq_iff_eq, List.mem_map, not_exists, not_and]

theorem keys_insert (entries : Entries α) (key : String) (value : α) :
    keys (insert entries key value) =
      if contains entries key then keys entries else keys entries ++ [key] := by
  induction entries with
  | nil => rfl
  | cons e rest ih =>
    rw [insert]
    by_cases h : e.1 = key
    · simp [keys, contains, h]
    · rw [if_neg (by simp [h])]
      simp only [keys, contains, List.map_cons, List.any_cons, beq_false_of_ne h, Bool.false_or] at ih ⊢
      rw [ih]
      split <;> rename_i hrest <;> simp [hrest]

end Entries

namespace Tree

def isNull : Tree → Bool
  | .null => true
  | _ => false

def asObject? : Tree → Option (Entries Tree)
  | .object entries => some entries
  | _ => none

def asArray? : Tree → Option (List Tree)
  | .array items => some items
  | _ => none

def asString? : Tree → Option String
  | .string s => some s
  | _ => none

def get? (tree : Tree) (key : String) : Option Tree := tree.asObject?.bind (Entries.get? · key)

def hexDigit (n : Nat) : Char := (Nat.digitChar n)

def escape (c : Char) : List Char :=
  if c = '"' then ['\\', '"']
  else if c = '\\' then ['\\', '\\']
  else if c = '\x08' then ['\\', 'b']
  else if c = '\x0c' then ['\\', 'f']
  else if c = '\n' then ['\\', 'n']
  else if c = '\r' then ['\\', 'r']
  else if c = '\t' then ['\\', 't']
  else if c.toNat < 32 then ['\\', 'u', '0', '0', hexDigit (c.toNat / 16), hexDigit (c.toNat % 16)]
  else [c]

def quoted (s : String) : String := "\"" ++ String.ofList (s.toList.flatMap escape) ++ "\""

mutual

def compact : Tree → String
  | .null => "null"
  | .bool b => toString b
  | .number n => n.text
  | .string s => quoted s
  | .array items => "[" ++ compactItems items ++ "]"
  | .object entries => "\x7b" ++ compactEntries entries ++ "\x7d"
termination_by structural t => t

def compactItems : List Tree → String
  | [] => ""
  | [t] => t.compact
  | t :: rest => t.compact ++ "," ++ compactItems rest
termination_by structural ts => ts

def compactEntries : List (String × Tree) → String
  | [] => ""
  | [(key, t)] => quoted key ++ ":" ++ t.compact
  | (key, t) :: rest => quoted key ++ ":" ++ t.compact ++ "," ++ compactEntries rest
termination_by structural es => es

end

end Tree

end CloudTemplate
