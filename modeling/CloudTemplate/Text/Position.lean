import CloudTemplate.Text.Utf8
/-! Lines and columns of a text's octets. An offset past the end stands for the end. -/
namespace CloudTemplate.Text

structure Position where
  line : Nat
  column : Nat
  deriving DecidableEq, Repr

def newline : UInt8 := 10

def positionIn (bytes : List UInt8) (offset : Nat) : Position :=
  let before := bytes.take offset
  ⟨before.count newline + 1, (before.reverse.takeWhile (· != newline)).length + 1⟩

def position (text : String) (offset : Nat) : Position := positionIn (octets text) offset

end CloudTemplate.Text
