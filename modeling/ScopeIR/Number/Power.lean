/-! Powers of the bases that numbers are written in, and the ranges of machine integers. -/
namespace ScopeIR

def pow2 (n : Nat) : Nat := Nat.pow 2 n
def pow5 (n : Nat) : Nat := Nat.pow 5 n
def pow10 (n : Nat) : Nat := Nat.pow 10 n

def isInt64 (n : Int) : Bool := decide (-(pow2 63 : Int) ≤ n) && decide (n < (pow2 63 : Int))

end ScopeIR
