import CloudTemplate.Text.Blank
/-! Double quotes in a line, and what stands outside them. A backslash between quotes takes the next
character with it. -/
namespace CloudTemplate.Shorthand

inductive Quoting where
  | outside
  | inside
  | escaped
  deriving DecidableEq, Repr

def Quoting.next : Quoting → Char → Quoting
  | .outside, c => if c = '"' then .inside else .outside
  | .inside, c => if c = '"' then .outside else if c = '\\' then .escaped else .inside
  | .escaped, _ => .inside

def bracketWeight (c : Char) : Int :=
  if c = '[' ∨ c = '\x7b' then 1 else if c = ']' ∨ c = '\x7d' then -1 else 0

def balanceFrom (q : Quoting) : List Char → Int
  | [] => 0
  | c :: cs => (if q = .outside then bracketWeight c else 0) + balanceFrom (q.next c) cs

/-- The brackets and braces that a text opens outside quotes, less those that it closes. -/
def bracketBalance (cs : List Char) : Int := balanceFrom .outside cs

/-- Whether a value announces a block scalar, such as `|`, `|-` or `>2`. -/
def isBlockIndicator : List Char → Bool
  | [] => false
  | c :: cs => (c == '|' || c == '>') && cs.all fun c => c == '-' || c == '+' || c.isDigit

/-- The characters that a value with shorthand in it starts with. -/
def opensFlow : List Char → Bool
  | [] => false
  | c :: _ => c == '!' || c == '[' || c == '\x7b'

def hasMark (cs : List Char) : Bool := cs.contains '!'

end CloudTemplate.Shorthand
