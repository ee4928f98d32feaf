import GraphQL.Number.Binary64
import GraphQL.Number.Integer

/-!
Decimal text of binary64 numbers: reading it, and writing the fewest digits that read
back as the same number. A `DecimalLayout` says how a format arranges those digits.
-/
namespace GraphQL

def splitSign : List Char → Bool × List Char
  | '-' :: rest => (true, rest)
  | '+' :: rest => (false, rest)
  | rest => (false, rest)

/-- After the mantissa: nothing, or `e` and an optionally signed run of digits. -/
def readExponent : List Char → Option Int
  | [] => some 0
  | c :: rest =>
    if c = 'e' ∨ c = 'E' then
      let (negative, digits) := splitSign rest
      if digits.isEmpty || !digits.all isAsciiDigit then none
      else if negative then some (-(digitsValue digits : Int)) else some (digitsValue digits)
    else none

/-- Digits with an optional point, on at least one side of it, and an optional exponent. -/
def readUnsignedDecimal (cs : List Char) : Option (Nat × Int) :=
  let whole := cs.takeWhile isAsciiDigit
  let (fraction, rest) := match cs.dropWhile isAsciiDigit with
    | '.' :: rest => (rest.takeWhile isAsciiDigit, rest.dropWhile isAsciiDigit)
    | rest => ([], rest)
  if whole.isEmpty && fraction.isEmpty then none
  else (readExponent rest).map fun e => (digitsValue (whole ++ fraction), e - fraction.length)

namespace Binary64

/-- Reads an optional sign, then `inf`, `infinity` or `nan` in any letter case, or a decimal. -/
def ofText? (text : String) : Option Binary64 :=
  let (negative, body) := splitSign text.toList
  let lower := String.ofList (body.map Char.toLower)
  if lower = "inf" ∨ lower = "infinity" then some (.infinite negative)
  else if lower = "nan" then some .nan
  else (readUnsignedDecimal body).map fun (digits, e) => ofDecimal negative digits e

end Binary64

structure DecimalLayout where
  positionalFrom : Int
  /-- The first power of ten that needs an exponent again. -/
  positionalBelow : Int
  plusSign : Bool
  /-- Of two equally near digit strings the even one, else the larger. -/
  tieToEven : Bool

namespace Finite64

/-- The least `p` with a magnitude below 10^p, for a magnitude that is not zero. -/
def order (units : Nat) : Int :=
  (Nat.toDigits 10 (units * tenTo 400 / unitsPerOne)).length - 400

def gridFloor (units : Nat) (g : Int) : Nat :=
  if 0 ≤ g then units / (unitsPerOne * tenTo g.toNat) else units * tenTo (-g).toNat / unitsPerOne

/-- How twice the magnitude compares with the midpoint above `low` on the grid of 10^g. -/
def compareMidpoint (units : Nat) (low : Nat) (g : Int) : Ordering :=
  if 0 ≤ g then compare (2 * units) ((2 * low + 1) * (unitsPerOne * tenTo g.toNat))
  else compare (2 * units * tenTo (-g).toNat) ((2 * low + 1) * unitsPerOne)

def readsBack (x : Finite64) (digits : Nat) (g : Int) : Bool :=
  Binary64.ofDecimal x.negative digits g = .finite x

/-- The neighbour on the grid of 10^g that reads back, the nearer one of two. -/
def onGrid? (x : Finite64) (tieToEven : Bool) (g : Int) : Option Nat :=
  let low := gridFloor x.units g
  if x.readsBack low g then
    if x.readsBack (low + 1) g then
      match compareMidpoint x.units low g with
      | .lt => some low
      | .gt => some (low + 1)
      | .eq => if tieToEven && low % 2 = 0 then some low else some (low + 1)
    else some low
  else if x.readsBack (low + 1) g then some (low + 1) else none

/-- Tries ever finer grids; all digits of the exact value remain if none is left. -/
def shortestFrom (x : Finite64) (tieToEven : Bool) (g : Int) : Nat → Nat × Int
  | 0 => (x.units * Nat.pow 5 1074, -1074)
  | n + 1 => match x.onGrid? tieToEven g with
    | some digits => (digits, g)
    | none => x.shortestFrom tieToEven (g - 1) n

/-- The fewest digits that read back, with their power of ten. -/
def shortest (x : Finite64) (tieToEven : Bool) : Nat × Int :=
  x.shortestFrom tieToEven (order x.units - 1) 17

/-- Digits without trailing zeros; each zero dropped raises the power of ten. -/
def stripZeros (digits : List Char) (exponent : Int) : List Char × Int :=
  let kept := (digits.reverse.dropWhile (· = '0')).reverse
  (kept, exponent + (digits.length - kept.length : Nat))

end Finite64

namespace DecimalLayout

def positional (digits : List Char) (p : Int) : List Char :=
  if p ≤ 0 then '0' :: '.' :: (List.replicate (-p).toNat '0' ++ digits)
  else if digits.length ≤ p.toNat then
    digits ++ List.replicate (p.toNat - digits.length) '0' ++ ['.', '0']
  else digits.take p.toNat ++ '.' :: digits.drop p.toNat

def scientific (layout : DecimalLayout) (digits : List Char) (power : Int) : List Char :=
  let mantissa := match digits with
    | [] => ['0']
    | [d] => [d]
    | d :: rest => d :: '.' :: rest
  let sign := if power < 0 then ['-'] else if layout.plusSign then ['+'] else []
  mantissa ++ 'e' :: sign ++ Nat.toDigits 10 power.natAbs

def magnitude (layout : DecimalLayout) (x : Finite64) : List Char :=
  if x.isZero then ['0', '.', '0']
  else
    let (n, e) := x.shortest layout.tieToEven
    let (digits, exponent) := Finite64.stripZeros (Nat.toDigits 10 n) e
    let p := digits.length + exponent
    if layout.positionalFrom ≤ p - 1 ∧ p - 1 < layout.positionalBelow then positional digits p
    else layout.scientific digits (p - 1)

def text (layout : DecimalLayout) (x : Finite64) : String :=
  String.ofList (if x.negative then '-' :: layout.magnitude x else layout.magnitude x)

end DecimalLayout

end GraphQL
