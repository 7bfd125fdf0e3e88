namespace ScopeIR

structure Position where
  line : Int := 0
  column : Int := 0
deriving DecidableEq, Repr

/-- A stretch of source text; all zero if unknown. -/
structure Location where
  start : Position := {}
  stop : Position := {}
deriving DecidableEq, Repr

end ScopeIR
