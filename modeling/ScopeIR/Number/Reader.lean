import ScopeIR.Number.Binary64
import ScopeIR.Number.Digits

/-! Numbers from free-standing text: a sign, then digits with perhaps a point and an
exponent, or the name of a number that is not finite. -/
namespace ScopeIR.Binary64

def exponent? : List Char → Option Int
  | [] => some 0
  | 'e' :: rest | 'E' :: rest => signedInt? (String.ofList rest)
  | _ => none

def unsigned? (negative : Bool) (text : List Char) : Option Binary64 := do
  let whole := text.takeWhile Char.isDigit
  let rest := text.dropWhile Char.isDigit
  let (fraction, rest) := match rest with
    | '.' :: rest => (rest.takeWhile Char.isDigit, rest.dropWhile Char.isDigit)
    | rest => ([], rest)
  if whole.isEmpty && fraction.isEmpty then none
  let exponent ← exponent? rest
  ofDecimal? negative ⟨naturalOf (whole ++ fraction), exponent - fraction.length⟩

def ofText? (text : String) : Option Binary64 :=
  if text = "NaN" then some nan
  else if text = "+Inf" || text = "Inf" then some (infinity false)
  else if text = "-Inf" then some (infinity true)
  else match text.toList with
    | '-' :: rest => unsigned? true rest
    | '+' :: rest => unsigned? false rest
    | rest => unsigned? false rest

end ScopeIR.Binary64
