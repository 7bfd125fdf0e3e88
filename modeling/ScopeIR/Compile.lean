import ScopeIR.Lowering.Program
import ScopeIR.Syntax.Reader
import ScopeIR.Verifier

namespace ScopeIR

structure CompileOptions where
  globals : List String := []
  verify : Bool := true
deriving DecidableEq, Repr

structure CompileResult where
  functions : Outcome (List Function)
  log : List Event

def compile (options : CompileOptions) (file text : String) : CompileResult :=
  match (Node.parseProgram text).within "decode syntax tree" with
  | .error failure => ⟨.error failure, []⟩
  | .ok node =>
    let (lowered, log) := lower file options.globals node
    match lowered.within "lower" with
    | .error failure => ⟨.error failure, log⟩
    | .ok functions =>
      if options.verify then
        let (verdict, events) := Verifier.run Verifier.noIds functions
        ⟨(verdict.within "verify").map fun _ => functions, log ++ events⟩
      else ⟨.ok functions, log⟩

end ScopeIR
