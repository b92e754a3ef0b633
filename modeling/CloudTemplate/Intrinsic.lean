import CloudTemplate.Tree
/-! The intrinsic functions of templates: their two names, and the arguments they take. A call is an
object with the long name of a function as its only key. -/
namespace CloudTemplate

inductive Intrinsic where
  | ref
  | getAtt
  | getAZs
  | importValue
  | findInMap
  | join
  | select
  | split
  | sub
  | and
  | equals
  | conditional
  | not
  | or
  | base64
  | cidr
  | condition
  deriving DecidableEq, Repr

/-- What a function takes: one value, a list with so many elements or with a number of elements within
bounds, or one value that may be paired with variables. -/
inductive Arity where
  | single
  | list (count : Nat)
  | variadic (min max : Nat)
  | singleOrPair
  deriving DecidableEq, Repr

namespace Intrinsic

def all : List Intrinsic :=
  [.ref, .getAtt, .getAZs, .importValue, .findInMap, .join, .select, .split, .sub, .and, .equals,
    .conditional, .not, .or, .base64, .cidr, .condition]

def tag : Intrinsic → String
  | .ref => "Ref"
  | .getAtt => "GetAtt"
  | .getAZs => "GetAZs"
  | .importValue => "ImportValue"
  | .findInMap => "FindInMap"
  | .join => "Join"
  | .select => "Select"
  | .split => "Split"
  | .sub => "Sub"
  | .and => "And"
  | .equals => "Equals"
  | .conditional => "If"
  | .not => "Not"
  | .or => "Or"
  | .base64 => "Base64"
  | .cidr => "Cidr"
  | .condition => "Condition"

def longName : Intrinsic → String
  | .ref => "Ref"
  | .condition => "Condition"
  | f => "Fn::" ++ f.tag

def arity : Intrinsic → Arity
  | .ref | .getAZs | .importValue | .base64 | .condition => .single
  | .getAtt | .join | .select | .split | .equals => .list 2
  | .findInMap | .conditional | .cidr => .list 3
  | .not => .list 1
  | .and | .or => .variadic 2 10
  | .sub => .singleOrPair

def ofTag? (name : String) : Option Intrinsic := all.find? fun f => f.tag == name

def ofLongName? (name : String) : Option Intrinsic := all.find? fun f => f.longName == name

/-- The function and the argument of a call. A lone `Condition` is no call: resources have an attribute
of that name. -/
def detect? : Tree → Option (Intrinsic × Tree)
  | .object [(key, argument)] =>
    match ofLongName? key with
    | some .condition => none
    | some f => some (f, argument)
    | none => none
  | _ => none

def isCall (value : Tree) : Bool := (detect? value).isSome

inductive ArityFault where
  | listForSingle
  | wrongCount (expected got : Nat)
  | notList
  | conditionCount (min max : Nat)
  | pairCount (got : Nat)
  deriving DecidableEq, Repr

def ArityFault.message (f : Intrinsic) : ArityFault → String
  | .listForSingle => s!"{f.longName} expects a single value, not a list"
  | .wrongCount expected got => s!"{f.longName} expects {expected} arguments, got {got}"
  | .notList => s!"{f.longName} expects a list of arguments"
  | .conditionCount min max => s!"{f.longName} expects between {min} and {max} conditions"
  | .pairCount got =>
    s!"{f.longName} expects a string or a [string, variables] pair, got {got} elements"

/-- What is wrong with the argument of a call. Zones are also asked for with a list, and an attribute
with its resource and its name joined by a point. -/
def arityFault? (f : Intrinsic) (argument : Tree) : Option ArityFault :=
  match f.arity, argument with
  | .single, .array _ => if f = .getAZs then none else some .listForSingle
  | .single, _ => none
  | .list n, .array items => if items.length = n then none else some (.wrongCount n items.length)
  | .list _, .string s => if f = .getAtt && s.toList.contains '.' then none else some .notList
  | .list _, _ => some .notList
  | .variadic min max, .array items =>
    if min ≤ items.length && items.length ≤ max then none else some (.conditionCount min max)
  | .variadic min max, _ => some (.conditionCount min max)
  | .singleOrPair, .array items => if items.length = 2 then none else some (.pairCount items.length)
  | .singleOrPair, _ => none

end Intrinsic

end CloudTemplate
