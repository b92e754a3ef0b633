import CloudTemplate.Shorthand.Expansion
/-! Mappings and sequences over several lines, with words and chains of calls in them, and the two ways
to print them: with the calls as tags, and with the calls as keys of their own. A level of nesting is
two columns wide. -/
namespace CloudTemplate.Shorthand

structure Letters where
  text : List Char
  nonempty : text ≠ []
  isAlpha : ∀ c ∈ text, c.isAlpha = true

structure Word extends Letters where
  notNumber : Number.readNumeral text = none

mutual

inductive BlockValue where
  | word (calls : List Intrinsic) (word : Word)
  | block (calls : List Intrinsic) (block : Block)

inductive Block where
  | mapping (entries : BlockEntries)
  | sequence (items : BlockItems)

inductive BlockEntries where
  | last (key : Letters) (value : BlockValue)
  | more (key : Letters) (value : BlockValue) (rest : BlockEntries)

inductive BlockItems where
  | last (value : BlockValue)
  | more (value : BlockValue) (rest : BlockItems)

end

def chainTags : List Intrinsic → List Char
  | [] => []
  | [f] => '!' :: f.tag.toList
  | f :: calls => '!' :: f.tag.toList ++ ' ' :: chainTags calls

def shortWord (word : Word) : List Intrinsic → List Char
  | [] => word.text
  | f :: calls => '!' :: f.tag.toList ++ ' ' :: shortWord word calls

mutual

def Block.short (lead : List Char) (column : Nat) : Block → List (List Char)
  | .mapping entries => entries.short lead column
  | .sequence items => items.short lead column

def BlockEntries.short (lead : List Char) (column : Nat) : BlockEntries → List (List Char)
  | .last key value => value.shortUnderKey (lead ++ key.text ++ [':']) column
  | .more key value rest =>
    value.shortUnderKey (lead ++ key.text ++ [':']) column ++ rest.short (Text.spaces column) column

def BlockItems.short (lead : List Char) (column : Nat) : BlockItems → List (List Char)
  | .last value => value.shortItem (lead ++ ['-', ' ']) column
  | .more value rest =>
    value.shortItem (lead ++ ['-', ' ']) column ++ rest.short (Text.spaces column) column

def BlockValue.shortUnderKey (lead : List Char) (column : Nat) : BlockValue → List (List Char)
  | .word calls word => [lead ++ ' ' :: shortWord word calls]
  | .block [] block => lead :: block.short (Text.spaces (column + 2)) (column + 2)
  | .block calls block =>
    (lead ++ ' ' :: chainTags calls) :: block.short (Text.spaces (column + 2)) (column + 2)

def BlockValue.shortItem (lead : List Char) (column : Nat) : BlockValue → List (List Char)
  | .word calls word => [lead ++ shortWord word calls]
  | .block [] block => block.short lead (column + 2)
  | .block calls block => (lead ++ chainTags calls) :: block.short (Text.spaces (column + 2)) (column + 2)

end

def chainKeys (lead : List Char) (column : Nat) : List Intrinsic → List (List Char)
  | [] => []
  | f :: calls =>
    (lead ++ f.longName.toList ++ [':']) :: chainKeys (Text.spaces (column + 2)) (column + 2) calls

def longCalls (word : Word) : List Intrinsic → List Char
  | [] => '"' :: word.text ++ ['"']
  | f :: calls =>
    "\x7b \"".toList ++ f.longName.toList ++ "\" : ".toList ++ longCalls word calls ++ " \x7d".toList

def longWord (word : Word) : List Intrinsic → List Char
  | [] => word.text
  | calls => longCalls word calls

mutual

def Block.long (lead : List Char) (column : Nat) : Block → List (List Char)
  | .mapping entries => entries.long lead column
  | .sequence items => items.long lead column

def BlockEntries.long (lead : List Char) (column : Nat) : BlockEntries → List (List Char)
  | .last key value => value.longUnderKey (lead ++ key.text ++ [':']) column
  | .more key value rest =>
    value.longUnderKey (lead ++ key.text ++ [':']) column ++ rest.long (Text.spaces column) column

def BlockItems.long (lead : List Char) (column : Nat) : BlockItems → List (List Char)
  | .last value => value.longItem (lead ++ ['-', ' ']) column
  | .more value rest =>
    value.longItem (lead ++ ['-', ' ']) column ++ rest.long (Text.spaces column) column

def BlockValue.longUnderKey (lead : List Char) (column : Nat) : BlockValue → List (List Char)
  | .word calls word => [lead ++ ' ' :: longWord word calls]
  | .block calls block =>
    let inner := column + 2 * calls.length + 2
    lead :: chainKeys (Text.spaces (column + 2)) (column + 2) calls
      ++ block.long (Text.spaces inner) inner

def BlockValue.longItem (lead : List Char) (column : Nat) : BlockValue → List (List Char)
  | .word calls word => [lead ++ longWord word calls]
  | .block [] block => block.long lead (column + 2)
  | .block calls block =>
    let inner := column + 2 * calls.length + 2
    chainKeys lead (column + 2) calls ++ block.long (Text.spaces inner) inner

end

end CloudTemplate.Shorthand
