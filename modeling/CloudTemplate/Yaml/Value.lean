import CloudTemplate.Tree
/-! Values that a YAML text may write: beside what trees hold there are infinite and undefined numbers,
tagged values, and mappings whose keys are any values. -/
namespace CloudTemplate.Yaml

inductive Number where
  | integer (value : Int)
  | real (value : CloudTemplate.Number.Binary64)
  | infinite (negative : Bool)
  | undefined
  deriving DecidableEq, Repr

def Number.same : Number → Number → Bool
  | .real x, .real y => x == y || (x.isZero && y.isZero)
  | a, b => a == b

inductive Value where
  | null
  | bool (value : Bool)
  | number (value : Number)
  | string (value : String)
  | sequence (items : List Value)
  | mapping (entries : List (Value × Value))
  | tagged (tag : String) (value : Value)
  deriving Repr, Inhabited

mutual

def Value.same : Value → Value → Bool
  | .null, .null => true
  | .bool a, .bool b => a == b
  | .number a, .number b => a.same b
  | .string a, .string b => a == b
  | .sequence as, .sequence bs => sameItems as bs
  | .mapping as, .mapping bs => as.length == bs.length && holdEntries bs as
  | .tagged s a, .tagged t b => s == t && a.same b
  | _, _ => false
termination_by structural a => a

def sameItems : List Value → List Value → Bool
  | [], [] => true
  | a :: as, b :: bs => a.same b && sameItems as bs
  | _, _ => false
termination_by structural as => as

def holdEntries (bs : List (Value × Value)) : List (Value × Value) → Bool
  | [] => true
  | (key, a) :: as => (bs.any fun b => key.same b.1 && a.same b.2) && holdEntries bs as
termination_by structural as => as

end

inductive KeyFault where
  | noText
  | notFinite
  deriving DecidableEq, Repr

def Value.keyText : Value → Except KeyFault String
  | .string s => .ok s
  | .bool b => .ok (toString b)
  | .number (.integer n) => .ok (toString n)
  | .number (.real x) => .ok x.text
  | .number _ => .error .notFinite
  | _ => .error .noText

def Number.toTree : Number → Tree
  | .integer n => .number (.integer n)
  | .real x => .number (.real x)
  | _ => .null

mutual

/-- A value as a tree. Numbers that are not finite are null, a tagged value is an object with the tag as
its key, and of two keys with one text the second takes the place of the first. -/
def Value.toTree : Value → Except KeyFault Tree
  | .null => .ok .null
  | .bool b => .ok (.bool b)
  | .number n => .ok n.toTree
  | .string s => .ok (.string s)
  | .sequence items => (itemsToTree items).map .array
  | .mapping entries => (entriesToTree [] entries).map .object
  | .tagged tag value => value.toTree.map fun t => .object [("!" ++ tag, t)]
termination_by structural v => v

def itemsToTree : List Value → Except KeyFault (List Tree)
  | [] => .ok []
  | v :: rest => do
    let t ← v.toTree
    let ts ← itemsToTree rest
    return t :: ts
termination_by structural vs => vs

def entriesToTree (seen : Entries Tree) : List (Value × Value) → Except KeyFault (Entries Tree)
  | [] => .ok seen
  | (key, v) :: rest => do
    let name ← key.keyText
    let t ← v.toTree
    entriesToTree (seen.insert name t) rest
termination_by structural es => es

end

end CloudTemplate.Yaml
