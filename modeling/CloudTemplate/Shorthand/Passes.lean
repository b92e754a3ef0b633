import CloudTemplate.Json.Decode
/-! The passes of normalization, each of which can be left out. -/
namespace CloudTemplate.Shorthand

inductive Pass where
  /-- Tags whose argument follows as a block become keys on lines of their own, and collections that
  span lines are joined. -/
  | multiline
  /-- Tags with their argument on the line are written out. -/
  | elongate
  /-- A long form after a key is put in braces. -/
  | correctLong
  deriving DecidableEq, Repr

def Pass.name : Pass → String
  | .multiline => "multiline"
  | .elongate => "elongate"
  | .correctLong => "correctlong"

def Pass.all : List Pass := [.multiline, .elongate, .correctLong]

def Pass.ofName? (name : String) : Option Pass := Pass.all.find? fun p => p.name == name.toLower

structure Options where
  passes : List Pass
  deriving DecidableEq, Repr

namespace Options

def standard : Options := ⟨Pass.all⟩

def without (options : Options) (pass : Pass) : Options := ⟨options.passes.filter (· != pass)⟩

def isEnabled (options : Options) (pass : Pass) : Bool := options.passes.contains pass

def choices : List (String × Pass) := Pass.all.map fun p => (p.name, p)

def shape : Json.Shape Options :=
  ⟨"NormalizerOptions",
    [.mandatory "passes" (Json.decodeList (Json.decodeChoice choices)) fun passes _ => ⟨passes⟩], ⟨[]⟩⟩

def read (text : String) : Except Json.Located Options := Json.readWith (Json.decodeRecord shape) text

end Options

end CloudTemplate.Shorthand
