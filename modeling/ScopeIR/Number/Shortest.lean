import ScopeIR.Number.Binary64

/-! The shortest decimal that reads back as a given number; of several the nearest,
of two equally near the even one. -/
namespace ScopeIR

namespace Binary64

def exactDecimal (x : Binary64) : Decimal :=
  if 0 ≤ x.exponent then ⟨x.significand * pow2 x.exponent.toNat, 0⟩
  else ⟨x.significand * pow5 (-x.exponent).toNat, x.exponent⟩

def abs (x : Binary64) : Binary64 := ofMagnitude false x.magnitudeBits

def readsBack (x : Binary64) (d : Decimal) : Bool :=
  ofDecimal? false d == some x.abs

def firstPlace (numerator denominator : Nat) : Int :=
  let reaches (e : Int) : Bool :=
    if 0 ≤ e then denominator * pow10 e.toNat ≤ numerator
    else denominator ≤ numerator * pow10 (-e).toNat
  let guess : Int := ((numerator.log2 : Int) - denominator.log2) * 30103 / 100000
  if reaches (guess + 1) then guess + 1
  else if reaches guess then guess
  else if reaches (guess - 1) then guess - 1
  else guess - 2

/-- The two neighbours of the magnitude on the grid of `10 ^ scale`, nearer first. -/
def neighbours (x : Binary64) (scale : Int) : List Decimal :=
  let numerator := x.ratio.1 * if 0 ≤ scale then 1 else pow10 (-scale).toNat
  let denominator := x.ratio.2 * if 0 ≤ scale then pow10 scale.toNat else 1
  let below := numerator / denominator
  let nearest := roundHalfEven numerator denominator
  if nearest = below then [⟨below, scale⟩, ⟨below + 1, scale⟩]
  else [⟨below + 1, scale⟩, ⟨below, scale⟩]

def decimalWithin (x : Binary64) (digits : Nat) : Option Decimal :=
  let first := firstPlace x.ratio.1 x.ratio.2
  (x.neighbours (first - digits + 1)).find? x.readsBack

/-- Seventeen digits are always enough; the full expansion stands behind them. -/
def shortest (x : Binary64) : Decimal :=
  if x.isZero then ⟨0, 0⟩
  else ((List.range 17).findSome? fun n => x.decimalWithin (n + 1)).getD x.exactDecimal

end Binary64

end ScopeIR
