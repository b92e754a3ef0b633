import CloudTemplate.Number.Numeral
/-! Finite numbers of 53 significant bits, held exactly: a sign, a significand and a power of two.
Every operation works on whole numbers and rounds once, to the nearest number and in a tie to the one
with an even significand. -/
namespace CloudTemplate.Number

/-- The number `significand * 2 ^ exponent` with a sign. Significands have 53 bits, fewer only at the
least exponent, so that each number has one form; the two zeros differ in sign. -/
structure Binary64 where
  negative : Bool
  significand : Nat
  exponent : Int
  deriving DecidableEq, Repr

namespace Binary64

def leastExponent : Int := -1074

def greatestExponent : Int := 971

def zero (negative : Bool) : Binary64 := ⟨negative, 0, leastExponent⟩

def isZero (x : Binary64) : Bool := x.significand == 0

def negate (x : Binary64) : Binary64 := { x with negative := !x.negative }

def nearestEven (num den : Nat) : Nat :=
  let q := num / den
  let twice := 2 * (num % den)
  if twice < den then q else if den < twice then q + 1 else q + q % 2

def descale (num den : Nat) (e : Int) : Nat × Nat :=
  if 0 ≤ e then (num, den * twoTo e.toNat) else (num * twoTo (-e).toNat, den)

def round (negative : Bool) (num den : Nat) : Option Binary64 :=
  if num = 0 then some (zero negative) else
  let guess : Int := (num.log2 : Int) - den.log2 - 52
  let (n, d) := descale num den guess
  let e := max (if n < d * twoTo 52 then guess - 1 else guess) leastExponent
  let (n, d) := descale num den e
  let q := nearestEven n d
  let (q, e) := if q = twoTo 53 then (twoTo 52, e + 1) else (q, e)
  if greatestExponent < e then none else some ⟨negative, q, e⟩

def fraction (x : Binary64) : Nat × Nat :=
  if 0 ≤ x.exponent then (x.significand * twoTo x.exponent.toNat, 1)
  else (x.significand, twoTo (-x.exponent).toNat)

def mul (x y : Binary64) : Option Binary64 :=
  let (a, b) := x.fraction
  let (c, d) := y.fraction
  round (x.negative != y.negative) (a * c) (b * d)

def div (x y : Binary64) : Option Binary64 :=
  let (a, b) := x.fraction
  let (c, d) := y.fraction
  round (x.negative != y.negative) (a * d) (b * c)

def ofDecimal (negative : Bool) (digits : Nat) (exponent : Int) : Option Binary64 :=
  let size := (Nat.toDigits 10 digits).length + exponent
  if digits = 0 || size < -400 then some (zero negative)
  else if 400 < size then none
  else if 0 ≤ exponent then round negative (digits * tenTo exponent.toNat) 1
  else round negative digits (tenTo (-exponent).toNat)

def atLeastTenTo (num den : Nat) (k : Int) : Bool :=
  if 0 ≤ k then decide (den * tenTo k.toNat ≤ num) else decide (den ≤ num * tenTo (-k).toNat)

def magnitude (num den : Nat) : Int :=
  let low : Int := (((num.log2 : Int) - den.log2 - 1) * 30103) / 100000
  let k := if atLeastTenTo num den low then low + 1 else low
  let k := if atLeastTenTo num den k then k + 1 else k
  if atLeastTenTo num den k then k + 1 else k

/-- Of two neighbours on a grid of decimals the nearer to the number among those that read back as it,
and in a tie the even one. -/
def nearestOnGrid (x : Binary64) (unit : Int) : Option Nat :=
  let (num, den) := x.fraction
  let (n, d) := if 0 ≤ unit then (num, den * tenTo unit.toNat) else (num * tenTo (-unit).toNat, den)
  let below := n / d
  let readsBack (k : Nat) : Bool := ofDecimal x.negative k unit == some x
  let nearer := if 2 * (n % d) = d then below % 2 = 0 else 2 * (n % d) < d
  if readsBack below && (nearer || !readsBack (below + 1)) then some below
  else if readsBack (below + 1) then some (below + 1)
  else none

def shortestFrom (x : Binary64) (top : Int) (count : Nat) : Nat → Nat × Int
  | 0 => (0, 0)
  | left + 1 =>
    match nearestOnGrid x (top - count) with
    | some digits => (digits, top - count)
    | none => shortestFrom x top (count + 1) left

def shortest (x : Binary64) : Nat × Int :=
  let (num, den) := x.fraction
  shortestFrom x (magnitude num den) 1 17

structure Style where
  greatestWhole : Int
  leastPart : Int
  deriving Repr

def plainStyle : Style := ⟨16, -5⟩

def exponentText (k : Int) : String :=
  if k < 0 then "e-" ++ toString k.natAbs else "e+" ++ toString k.natAbs

def zeros (n : Nat) : List Char := List.replicate n '0'

def layOut (style : Style) (digits : List Char) (exponent : Int) : String :=
  let point := digits.length + exponent
  if 0 ≤ exponent && point ≤ style.greatestWhole then
    String.ofList (digits ++ zeros exponent.toNat) ++ ".0"
  else if 0 < point && point ≤ style.greatestWhole then
    String.ofList (digits.take point.toNat ++ '.' :: digits.drop point.toNat)
  else if style.leastPart < point && point ≤ 0 then
    "0." ++ String.ofList (zeros (-point).toNat ++ digits)
  else
    match digits with
    | [d] => String.ofList [d] ++ exponentText (point - 1)
    | d :: rest => String.ofList (d :: '.' :: rest) ++ exponentText (point - 1)
    | [] => ""

def stripZeros (digits : List Char) (exponent : Int) : List Char × Int :=
  let kept := (digits.reverse.dropWhile (· == '0')).reverse
  (kept, exponent + (digits.length - kept.length))

/-- The shortest text that reads back as the number. -/
def text (x : Binary64) : String :=
  let sign := if x.negative then "-" else ""
  if x.isZero then sign ++ "0.0"
  else
    let (digits, exponent) := x.shortest
    let (digits, exponent) := stripZeros (Nat.toDigits 10 digits) exponent
    sign ++ layOut plainStyle digits exponent

def ofNumeral : Numeral → Option Binary64
  | .decimal negative digits exponent => ofDecimal negative digits exponent
  | _ => none

end Binary64

end CloudTemplate.Number
