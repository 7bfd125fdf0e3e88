import ScopeIR.Code.Function
import ScopeIR.Text.Quoted

/-! Functions as text: a line for each block, a line for each instruction. -/
namespace ScopeIR

namespace Value

def text : Value → String
  | .ref id => "r" ++ toString id
  | .scope id target =>
    if id = target then "s" ++ toString target
    else "r" ++ toString id ++ "(s" ++ toString target ++ ")"
  | .func id link =>
    let name := match link with
      | some link => link.definition.shownName
      | none => "?"
    "r" ++ toString id ++ "(func " ++ name ++ ")"
  | .const c =>
    if (Value.const c).isNull then "null"
    else
      let literal := match c.literal with
        | .str text => Text.quote text
        | other => other.plainText
      "c" ++ toString c.id ++ "(" ++ c.type.kind ++ " " ++ literal ++ ")"

def textOrNil : Option Value → String
  | some value => value.text
  | none => "<nil>"

end Value

namespace Instruction

def text : Instruction → Outcome String
  | .call _ dest _ callee operands =>
    .ok ("r" ++ toString dest ++ " = " ++ callee.shownName ++ "(" ++
      ", ".intercalate (operands.map Value.textOrNil) ++ ")")
  | .ret _ value => .ok ("return " ++ Value.textOrNil value)
  | .branch _ (some target) => .ok ("br b" ++ toString target.index)
  | .branch _ none => Outcome.fail .undefined
  | .scope _ id => .ok ("scope s" ++ toString id)

def note (instruction : Instruction) : String :=
  let start := instruction.location.start
  if start.line = 0 then ""
  else "\t// " ++ toString start.line ++ ":" ++ toString start.column

def line (instruction : Instruction) : Outcome String := do
  return "\t" ++ (← instruction.text) ++ instruction.note ++ "\n"

end Instruction

namespace Block

def dump (block : Block) : Outcome String := do
  let lines ← block.instructions.mapM Instruction.line
  return "b" ++ toString block.index ++ ": scope s" ++ toString block.scope ++ "\n" ++
    String.join lines

end Block

namespace Parameter

def text (p : Parameter) : String :=
  (if p.name.isEmpty then "_" else p.name) ++ " r" ++ toString p.id

end Parameter

namespace Function

def dump (f : Function) : Outcome String := do
  let blocks ← f.blocks.mapM Block.dump
  return "func " ++ f.definition.shownName ++ "(" ++
    ", ".intercalate (f.parameters.map Parameter.text) ++ ") " ++ f.definition.shownSignature ++
    " \x7b\n" ++ String.join blocks ++ "\x7d\n"

def dumpAll (functions : List Function) : Outcome String := do
  return "\n".intercalate (← functions.mapM Function.dump)

end Function

end ScopeIR
