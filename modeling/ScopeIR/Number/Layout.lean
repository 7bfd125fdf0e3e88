import ScopeIR.Number.Shortest

/-! How numbers are written: positional digits for middling exponents, one digit
before the point and an exponent for the others. -/
namespace ScopeIR

/-- Positional notation is used for a first digit at `lowest` or above and below
`highest`; an exponent has at least `exponentWidth` digits. -/
structure NumberLayout where
  lowest : Int
  highest : Int
  exponentWidth : Nat
deriving DecidableEq, Repr

namespace NumberLayout

def trimZeros (digits : List Char) : List Char :=
  match (digits.reverse.dropWhile (· == '0')).reverse with
  | [] => ['0']
  | kept => kept

def positional (digits : List Char) (first : Int) : List Char :=
  if first < 0 then '0' :: '.' :: List.replicate (-first - 1).toNat '0' ++ digits
  else
    let whole := first.toNat + 1
    let padded := digits.take whole ++ List.replicate (whole - digits.length) '0'
    match digits.drop whole with
    | [] => padded
    | fraction => padded ++ '.' :: fraction

def withExponent (width : Nat) (digits : List Char) (first : Int) : List Char :=
  let mantissa := match digits with
    | lead :: rest@(_ :: _) => lead :: '.' :: rest
    | single => single
  let places := Nat.toDigits 10 first.natAbs
  let sign := if first < 0 then '-' else '+'
  mantissa ++ 'e' :: sign :: List.replicate (width - places.length) '0' ++ places

def magnitude (layout : NumberLayout) (d : Decimal) : List Char :=
  let digits := Nat.toDigits 10 d.digits
  let first : Int := (digits.length : Int) - 1 + d.scale
  let kept := trimZeros digits
  if layout.lowest ≤ first ∧ first < layout.highest then positional kept first
  else withExponent layout.exponentWidth kept first

def finite (layout : NumberLayout) (x : Binary64) : String :=
  let text := if x.isZero then ['0'] else layout.magnitude x.shortest
  String.ofList (if x.negative then '-' :: text else text)

end NumberLayout

namespace Binary64

/-- Plain text turns to exponents at a million and below a ten-thousandth. -/
def plainLayout : NumberLayout := ⟨-4, 6, 2⟩

/-- Documents and property names write out up to twenty-one digits. -/
def wideLayout : NumberLayout := ⟨-6, 21, 1⟩

def plainText (x : Binary64) : String :=
  if x.isNaN then "NaN"
  else if x.isInfinite then if x.negative then "-Inf" else "+Inf"
  else plainLayout.finite x

/-- Absent for the numbers that a document cannot hold. -/
def documentText? (x : Binary64) : Option String :=
  if x.isFinite then some (wideLayout.finite x) else none

def propertyName (x : Binary64) : String :=
  if x.isNaN then "NaN"
  else if x.isInfinite then if x.negative then "-Infinity" else "Infinity"
  else if x.isZero then "0"
  else wideLayout.finite x

end Binary64

end ScopeIR
