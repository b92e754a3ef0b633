import CloudTemplate.Text.Utf8
import CloudTemplate.Yaml.Event
import CloudTemplate.Yaml.Value
/-! What scalars mean. A plain scalar is null, a truth value or a number if it is written as one, and a
text otherwise; a tag may ask for one of these. Digits that start with a zero write no number. -/
namespace CloudTemplate.Yaml.Meaning

def isNull (s : String) : Bool := s == "null" || s == "Null" || s == "NULL" || s == "~"

def bool? (s : String) : Option Bool :=
  if s = "true" || s = "True" || s = "TRUE" then some true
  else if s = "false" || s = "False" || s = "FALSE" then some false
  else none

def withoutPlus : List Char → List Char
  | '+' :: cs => cs
  | cs => cs

def withoutSign : List Char → List Char
  | '+' :: cs => cs
  | '-' :: cs => cs
  | cs => cs

def isZeroLed (cs : List Char) : Bool :=
  match withoutSign cs with
  | '0' :: c :: rest => (c :: rest).all Char.isDigit
  | _ => false

def natural? : List Char → Option Nat
  | '0' :: 'x' :: cs => Text.digits? 16 cs
  | '0' :: 'o' :: cs => Text.digits? 8 cs
  | '0' :: 'b' :: cs => Text.digits? 2 cs
  | cs => if isZeroLed cs then none else Text.digits? 10 cs

def integer? : List Char → Option Int
  | '-' :: cs => (natural? cs).map fun n => -(n : Int)
  | cs => (natural? (withoutPlus cs)).map fun n => (n : Int)

def fits (bits : Nat) (n : Int) : Bool :=
  let least : Int := -CloudTemplate.Number.twoTo (bits - 1)
  let past : Int := CloudTemplate.Number.twoTo bits
  decide (least ≤ n) && decide (n < past)

/-- Whole numbers of 64 bits are numbers. Those of at most 128 bits are refused, and larger ones are no
whole numbers. -/
def wholeNumber? (cs : List Char) : Option (Except Cause Value) :=
  match integer? cs with
  | none => none
  | some n =>
    if fits 64 n then some (.ok (.number (.integer n)))
    else if fits 128 n then some (.error .integerOutOfRange)
    else none

def finite? (cs : List Char) : Option CloudTemplate.Number.Binary64 :=
  match CloudTemplate.Number.readNumeral cs with
  | some (.decimal negative digits exponent) =>
    CloudTemplate.Number.Binary64.ofNumeral (.decimal negative digits exponent)
  | _ => none

def infinityWords : List String := [".inf", ".Inf", ".INF"]

def undefinedWords : List String := [".nan", ".NaN", ".NAN"]

def real? (cs : List Char) : Option Number :=
  let unsigned := withoutPlus cs
  if infinityWords.contains (String.ofList unsigned) then some (.infinite false)
  else if cs.head? = some '-' && infinityWords.contains (String.ofList (cs.drop 1)) then
    some (.infinite true)
  else if undefinedWords.contains (String.ofList cs) then some .undefined
  else if cs.head? = some '+' && unsigned.head?.any fun c => c == '+' || c == '-' then none
  else (finite? unsigned).map .real

def ofPlain (s : String) : Except Cause Value :=
  let cs := s.toList
  if cs.isEmpty || isNull s then .ok .null
  else
    match bool? s, wholeNumber? cs with
    | some b, _ => .ok (.bool b)
    | none, some whole => whole
    | none, none =>
      if isZeroLed cs then .ok (.string s)
      else
        match real? cs with
        | some x => .ok (.number x)
        | none => .ok (.string s)

def standardTag (name : String) : Octets := Tag.octets ("tag:yaml.org,2002:" ++ name).toList

def isLocal (tag : Octets) : Bool := tag.head? == some 33

def localName? (tag : Octets) : Option String :=
  if !isLocal tag then none
  else
    let text (octets : Octets) := (Text.readUtf8 octets).toOption
    match text (if tag.length = 1 then tag else tag.drop 1) with
    | none => none
    | some ('!' :: c :: cs) => some (String.ofList (c :: cs))
    | some cs => some (String.ofList cs)

def ofTagged (s : String) (plain : Bool) (tag : Octets) : Except Cause Value :=
  if tag = standardTag "bool" then
    match bool? s with
    | some b => .ok (.bool b)
    | none => .error .notOfTag
  else if tag = standardTag "int" then (wholeNumber? s.toList).getD (.error .notOfTag)
  else if tag = standardTag "float" then
    match real? s.toList with
    | some x => .ok (.number x)
    | none => .error .notOfTag
  else if tag = standardTag "null" then if isNull s then .ok .null else .error .notOfTag
  else if isLocal tag && plain then ofPlain s
  else .ok (.string s)

def untagged (s : String) (plain : Bool) : Except Cause Value := if plain then ofPlain s else .ok (.string s)

def ofScalar (s : String) (plain : Bool) : Option Octets → Except Cause Value
  | none => untagged s plain
  | some tag =>
    match localName? tag with
    | some name => (untagged s plain).map (.tagged name)
    | none => ofTagged s plain tag

def withTag (tag : Option Octets) (value : Value) : Value :=
  match tag.bind localName? with
  | some name => .tagged name value
  | none => value

end CloudTemplate.Yaml.Meaning
