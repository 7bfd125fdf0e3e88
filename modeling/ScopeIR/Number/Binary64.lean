import ScopeIR.Number.Power

/-! Binary floating-point numbers of 64 bits, held as their bit pattern, and the
reading of a decimal as the nearest of them. -/
namespace ScopeIR

structure Binary64 where
  bits : UInt64
deriving DecidableEq, Repr

/-- The magnitude `digits * 10 ^ scale`. -/
structure Decimal where
  digits : Nat
  scale : Int
deriving DecidableEq, Repr

namespace Decimal

def ratio (d : Decimal) : Nat × Nat :=
  if 0 ≤ d.scale then (d.digits * pow10 d.scale.toNat, 1) else (d.digits, pow10 (-d.scale).toNat)

end Decimal

def roundHalfEven (numerator denominator : Nat) : Nat :=
  let quotient := numerator / denominator
  let rest := 2 * (numerator % denominator)
  if rest < denominator then quotient
  else if denominator < rest then quotient + 1
  else quotient + quotient % 2

namespace Binary64

def magnitudeBits (x : Binary64) : Nat := x.bits.toNat % pow2 63

def negative (x : Binary64) : Bool := pow2 63 ≤ x.bits.toNat

/-- First bit pattern past the finite magnitudes. -/
def infinityBits : Nat := 2047 * pow2 52

def ofMagnitude (negative : Bool) (bits : Nat) : Binary64 :=
  ⟨UInt64.ofNat (bits + if negative then pow2 63 else 0)⟩

def isFinite (x : Binary64) : Bool := x.magnitudeBits < infinityBits
def isInfinite (x : Binary64) : Bool := x.magnitudeBits == infinityBits
def isNaN (x : Binary64) : Bool := infinityBits < x.magnitudeBits
def isZero (x : Binary64) : Bool := x.magnitudeBits == 0

def zero : Binary64 := ofMagnitude false 0
def one : Binary64 := ofMagnitude false (1023 * pow2 52)
def nan : Binary64 := ofMagnitude false (infinityBits + pow2 51)
def infinity (negative : Bool) : Binary64 := ofMagnitude negative infinityBits

/-- A finite magnitude is `significand * 2 ^ exponent`. -/
def significand (x : Binary64) : Nat :=
  let fraction := x.magnitudeBits % pow2 52
  if x.magnitudeBits < pow2 52 then fraction else pow2 52 + fraction

def exponent (x : Binary64) : Int :=
  (max (x.magnitudeBits / pow2 52) 1 : Nat) - 1075

def ratio (x : Binary64) : Nat × Nat :=
  if 0 ≤ x.exponent then (x.significand * pow2 x.exponent.toNat, 1)
  else (x.significand, pow2 (-x.exponent).toNat)

def scaled (numerator denominator : Nat) (e : Int) : Nat × Nat :=
  if 0 ≤ e then (numerator, denominator * pow2 e.toNat)
  else (numerator * pow2 (-e).toNat, denominator)

/-- The exponent that leaves 53 bits of a positive quotient before the point. -/
def fittedExponent (numerator denominator : Nat) : Int :=
  let guess : Int := (numerator.log2 : Int) - denominator.log2 - 52
  let wide := scaled numerator denominator guess
  if wide.1 < wide.2 * pow2 52 then guess - 1 else guess

/-- Bit pattern of the magnitude nearest to a quotient. The exponent is chosen so
that the significand has 53 bits, or is the least exponent there is; a significand
rounded up to 54 bits carries into the exponent by itself. -/
def nearestBits (numerator denominator : Nat) : Nat :=
  let e := max (fittedExponent numerator denominator) (-1074)
  let quotient := scaled numerator denominator e
  (e + 1074).toNat * pow2 52 + roundHalfEven quotient.1 quotient.2

/-- The number nearest to a decimal, ties to the even significand; absent if the
magnitude rounds past the finite ones. Decimals far outside the range are settled
by the place of their first digit. -/
def ofDecimal? (negative : Bool) (d : Decimal) : Option Binary64 :=
  let places : Int := (Nat.toDigits 10 d.digits).length + d.scale
  if d.digits = 0 || places < -400 then some (ofMagnitude negative 0)
  else if 400 < places then none
  else
    let bits := nearestBits d.ratio.1 d.ratio.2
    if bits < infinityBits then some (ofMagnitude negative bits) else none

end Binary64

end ScopeIR
