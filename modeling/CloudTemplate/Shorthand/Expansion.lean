import CloudTemplate.Shorthand.Flow
import CloudTemplate.Number.Numeral
/-! Shorthand in a value, written out: a tag becomes an object with the long name of its function. A tag
without an argument on its line is left for the lines that follow. -/
namespace CloudTemplate.Shorthand

inductive Fragment where
  | plain (text : List Char)
  | quoted (text : List Char)
  | structured (text : List Char)
  | waiting (functions : List String) (indicator : Option (List Char))
  deriving DecidableEq, Repr

def joinNames (names : List String) : List Char := (" ".intercalate names).toList

def inQuotes (cs : List Char) : List Char := '"' :: cs ++ ['"']

def quote (cs : List Char) : List Char :=
  inQuotes (cs.flatMap fun c => if c = '"' ∨ c = '\\' then ['\\', c] else [c])

def Fragment.text : Fragment → List Char
  | .plain cs => cs
  | .quoted cs => inQuotes cs
  | .structured cs => cs
  | .waiting functions _ => joinNames functions

def splitPoint (cs : List Char) : Option (List Char × List Char) :=
  if cs.contains '.' then some (cs.takeWhile (· != '.'), (cs.dropWhile (· != '.')).drop 1) else none

def attributeList (cs : List Char) : List Char :=
  match splitPoint cs with
  | some (resource, name) => '[' :: quote resource ++ ", ".toList ++ quote name ++ [']']
  | none => quote cs

def isNumeric (cs : List Char) : Bool :=
  (Number.readNumeral cs).isSome && cs.head? != some '.'

def argumentText (name : String) : Fragment → List Char
  | .plain cs =>
    let cs := Text.trim cs
    if name = Intrinsic.getAtt.longName then attributeList cs
    else if isNumeric cs then cs
    else quote cs
  | .quoted cs => if name = Intrinsic.getAtt.longName then attributeList cs else inQuotes cs
  | .structured cs => cs
  | .waiting functions _ => joinNames functions

def callText (name : String) (argument : Fragment) : List Char :=
  "\x7b \"".toList ++ name.toList ++ "\" : ".toList ++ argumentText name argument ++ " \x7d".toList

def applyName (name : String) : Fragment → Fragment
  | .waiting functions indicator => .waiting (name :: functions) indicator
  | argument => .structured (callText name argument)

mutual

def Flow.fragment : Flow → Fragment
  | .plain cs => .plain cs
  | .quoted cs => .quoted cs
  | .sequence items => .structured ('[' :: items.text)
  | .mapping pairs => .structured ('\x7b' :: pairs.text)
  | .kept tag value => .structured (tag ++ ' ' :: value.fragment.text)
  | .call f argument => applyName f.longName argument.fragment
  | .opened f indicator => .waiting [f.longName] indicator
termination_by structural value => value

def Items.text : Items → List Char
  | .close gap => gap ++ [']']
  | .last before value after => before ++ value.fragment.text ++ after ++ [']']
  | .more before value after rest => before ++ value.fragment.text ++ after ++ ',' :: rest.text
termination_by structural items => items

def Pairs.text : Pairs → List Char
  | .close gap => gap ++ ['\x7d']
  | .last before key gap slot => before ++ key ++ gap ++ slot.text ++ ['\x7d']
  | .more before key gap slot rest => before ++ key ++ gap ++ slot.text ++ ',' :: rest.text
termination_by structural pairs => pairs

def Slot.text : Slot → List Char
  | .bare => []
  | .empty gap => ':' :: gap
  | .filled before value after => ':' :: before ++ value.fragment.text ++ after
termination_by structural slot => slot

end

inductive Expansion where
  | unchanged
  | inline (text : List Char)
  | block (functions : List String) (indicator : Option (List Char))
  deriving DecidableEq, Repr

/-- Writes out a value that starts with a mark or a bracket and holds a mark. Text after the value is
kept. -/
def expandValue (value : List Char) : Except FlowFault Expansion :=
  if hasMark value && opensFlow value then
    match readFlow false value with
    | .error fault => .error fault
    | .ok (flow, rest) =>
      match flow.fragment with
      | .waiting functions indicator => .ok (.block functions indicator)
      | fragment => .ok (.inline (fragment.text ++ rest.1))
  else .ok .unchanged

/-- Writes out a function by its long name with an argument after it on the line. Nothing may follow
the argument. -/
def expandLongForm (name : String) (argument : List Char) : Except FlowFault Expansion :=
  let argument := Text.trim argument
  if argument.isEmpty then .ok (.block [name] none)
  else if isBlockIndicator argument then .ok (.block [name] (some argument))
  else
    match readFlow false argument with
    | .error fault => .error fault
    | .ok (flow, rest) =>
      if !rest.1.isEmpty then .error (.textAfterArgument name (String.ofList rest.1))
      else
        match applyName name flow.fragment with
        | .waiting functions indicator => .ok (.block functions indicator)
        | fragment => .ok (.inline fragment.text)

end CloudTemplate.Shorthand
