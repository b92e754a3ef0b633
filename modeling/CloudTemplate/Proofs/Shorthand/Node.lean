import CloudTemplate.Shorthand.Expansion
/-! Values on one line as they are meant: scalars, collections and calls with the spacing between them.
Each has two texts, one with its calls as tags and one with its calls written out. Expanding the first
gives the second, character by character. -/
namespace CloudTemplate.Shorthand

structure Spacing where
  text : List Char
  isGap : ∀ c ∈ text, Text.isGap c = true

def noSpace : Spacing := ⟨[], List.forall_mem_nil _⟩

def oneSpace : Spacing := ⟨[' '], List.forall_mem_singleton.2 rfl⟩

theorem oneSpace_ne_nil : oneSpace.text ≠ [] := List.cons_ne_nil _ _

def startsScalar : List Char → Bool
  | [] => false
  | c :: _ => !Text.isBlank c && !(['!', '[', '\x7b', '"'].contains c)

structure Scalar where
  text : List Char
  starts : startsScalar text = true
  ends : Text.trimEnd text = text
  unbroken : ∀ c ∈ text, endsPlain c = false
  announcesNothing : isBlockIndicator text = false

/-- Whether a text between quotes leaves them closed: each quote in it has its backslash, and the last
backslash its character. -/
def staysQuoted : List Char → Bool
  | [] => true
  | '"' :: _ => false
  | ['\\'] => false
  | '\\' :: _ :: cs => staysQuoted cs
  | _ :: cs => staysQuoted cs

/-- Induction along a text in which a backslash takes the next character with it. -/
theorem escapeInduction {motive : List Char → Prop} (nil : motive []) (last : motive ['\\'])
    (quote : ∀ cs, motive ('"' :: cs)) (pair : ∀ c cs, motive cs → motive ('\\' :: c :: cs))
    (plain : ∀ c cs, c ≠ '"' → c ≠ '\\' → motive cs → motive (c :: cs)) (cs : List Char) : motive cs := by
  fun_induction staysQuoted cs with
  | case1 => exact nil
  | case2 cs => exact quote cs
  | case3 => exact last
  | case4 c cs ih => exact pair c cs ih
  | case5 c cs hquote hlast hescape ih =>
    refine plain c cs (fun h => hquote h) ?_ ih
    rintro rfl
    cases cs with
    | nil => exact hlast rfl rfl
    | cons d ds => exact hescape d ds rfl rfl

theorem staysQuoted_cons {c : Char} (hquote : c ≠ '"') (hbackslash : c ≠ '\\') (cs : List Char) :
    staysQuoted (c :: cs) = staysQuoted cs := by
  rw [staysQuoted]
  · exact hquote
  · exact fun h => absurd h hbackslash
  · exact fun _ _ h => absurd h hbackslash

theorem closeQuote_cons {c : Char} (hquote : c ≠ '"') (hbackslash : c ≠ '\\') (cs : List Char) :
    closeQuote (c :: cs) = (closeQuote cs).map fun split => (c :: split.1, split.2) := by
  rw [closeQuote]
  · exact hquote
  · exact fun h => absurd h hbackslash
  · exact fun _ _ h => absurd h hbackslash

structure QuotedText where
  text : List Char
  closed : staysQuoted text = true

def staysKey : List Char → Bool
  | [] => true
  | ':' :: ' ' :: _ => false
  | c :: cs => c != ',' && c != '\x7d' && staysKey cs

structure PlainKey where
  text : List Char
  spacing : Spacing
  starts : text.head?.all (fun c => !Text.isBlank c && c != '"') = true
  nonempty : text ≠ []
  ends : Text.trimEnd text = text
  unbroken : staysKey (text ++ spacing.text) = true

inductive FlowKey where
  | plain (key : PlainKey) (after : Spacing)
  | quoted (key : QuotedText) (before after : Spacing)

mutual

inductive Node where
  | plain (scalar : Scalar)
  | quoted (body : QuotedText)
  | sequence (items : NodeItems)
  | mapping (pairs : NodePairs)
  | call (f : Intrinsic) (spacing : Spacing) (apart : spacing.text ≠ []) (argument : Node)

inductive NodeItems where
  | close (spacing : Spacing)
  | last (before : Spacing) (value : Node) (after : Spacing)
  | more (before : Spacing) (value : Node) (after : Spacing) (rest : NodeItems)

inductive NodePairs where
  | close (spacing : Spacing)
  | last (before : Spacing) (key : FlowKey) (value : Node) (after : Spacing)
  | more (before : Spacing) (key : FlowKey) (value : Node) (after : Spacing) (rest : NodePairs)

end

namespace FlowKey

def name : FlowKey → List Char
  | .plain key _ => key.text
  | .quoted key _ _ => inQuotes key.text

def before : FlowKey → List Char
  | .plain key _ => key.spacing.text
  | .quoted _ before _ => before.text

def after : FlowKey → List Char
  | .plain _ after => ' ' :: after.text
  | .quoted _ _ after => after.text

def text (key : FlowKey) : List Char := key.name ++ key.before ++ ':' :: key.after

end FlowKey

mutual

def Node.source : Node → List Char
  | .plain scalar => scalar.text
  | .quoted body => inQuotes body.text
  | .sequence items => '[' :: items.source
  | .mapping pairs => '\x7b' :: pairs.source
  | .call f spacing _ argument => '!' :: f.tag.toList ++ spacing.text ++ argument.source

def NodeItems.source : NodeItems → List Char
  | .close spacing => spacing.text ++ [']']
  | .last before value after => before.text ++ value.source ++ after.text ++ [']']
  | .more before value after rest => before.text ++ value.source ++ after.text ++ ',' :: rest.source

def NodePairs.source : NodePairs → List Char
  | .close spacing => spacing.text ++ ['\x7d']
  | .last before key value after => before.text ++ key.text ++ value.source ++ after.text ++ ['\x7d']
  | .more before key value after rest =>
    before.text ++ key.text ++ value.source ++ after.text ++ ',' :: rest.source

end

def attributeArgument (cs : List Char) : List Char :=
  match cs.idxOf? '.' with
  | some i => '[' :: quote (cs.take i) ++ ", ".toList ++ quote (cs.drop (i + 1)) ++ [']']
  | none => quote cs

/-- An argument written out: the scalar argument of an attribute look-up is cut into its parts, and
another plain scalar goes between quotes unless it is a number. -/
def Node.writtenArgument (f : Intrinsic) (argument : Node) (expanded : List Char) : List Char :=
  match f, argument with
  | .getAtt, .plain scalar => attributeArgument scalar.text
  | .getAtt, .quoted body => attributeArgument body.text
  | _, .plain scalar => if isNumeric scalar.text then scalar.text else quote scalar.text
  | _, _ => expanded

mutual

def Node.expanded : Node → List Char
  | .plain scalar => scalar.text
  | .quoted body => inQuotes body.text
  | .sequence items => '[' :: items.expanded
  | .mapping pairs => '\x7b' :: pairs.expanded
  | .call f _ _ argument =>
    "\x7b \"".toList ++ f.longName.toList ++ "\" : ".toList
      ++ argument.writtenArgument f argument.expanded ++ " \x7d".toList

def NodeItems.expanded : NodeItems → List Char
  | .close spacing => spacing.text ++ [']']
  | .last before value after => before.text ++ value.expanded ++ after.text ++ [']']
  | .more before value after rest =>
    before.text ++ value.expanded ++ after.text ++ ',' :: rest.expanded

def NodePairs.expanded : NodePairs → List Char
  | .close spacing => spacing.text ++ ['\x7d']
  | .last before key value after =>
    before.text ++ key.text ++ value.expanded ++ after.text ++ ['\x7d']
  | .more before key value after rest =>
    before.text ++ key.text ++ value.expanded ++ after.text ++ ',' :: rest.expanded

end

mutual

def Node.hasCall : Node → Bool
  | .plain _ => false
  | .quoted _ => false
  | .sequence items => items.hasCall
  | .mapping pairs => pairs.hasCall
  | .call .. => true

def NodeItems.hasCall : NodeItems → Bool
  | .close _ => false
  | .last _ value _ => value.hasCall
  | .more _ value _ rest => value.hasCall || rest.hasCall

def NodePairs.hasCall : NodePairs → Bool
  | .close _ => false
  | .last _ _ value _ => value.hasCall
  | .more _ _ value _ rest => value.hasCall || rest.hasCall

end

end CloudTemplate.Shorthand
