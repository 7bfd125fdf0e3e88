import ScopeIR.Number.Binary64

/-! JSON values as they are read. A number keeps what its spelling says, since an
integer field refuses a fraction or an exponent; an object keeps its members in
order, repeated names included. -/
namespace ScopeIR

/-- The number `± digits * 10 ^ scale`; `integral` if spelled without fraction and
exponent. -/
structure Numeral where
  negative : Bool
  magnitude : Decimal
  integral : Bool
deriving DecidableEq, Repr

inductive Json where
  | null
  | bool (value : Bool)
  | num (numeral : Numeral)
  | str (text : String)
  | arr (items : List Json)
  | obj (members : List (String × Json))
deriving Repr

namespace Numeral

def int? (n : Numeral) : Option Int :=
  let value : Int := if n.negative then -(n.magnitude.digits : Int) else n.magnitude.digits
  if n.integral && isInt64 value then some value else none

def binary64? (n : Numeral) : Option Binary64 :=
  Binary64.ofDecimal? n.negative n.magnitude

end Numeral

namespace Json

/-- Of members with one name the last one counts. -/
def lookup (members : List (String × Json)) (name : String) : Option Json :=
  members.reverse.lookup name

end Json

end ScopeIR
