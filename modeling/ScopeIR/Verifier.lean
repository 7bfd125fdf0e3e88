import ScopeIR.Bits
import ScopeIR.Lowering.Event
import ScopeIR.Reachability
import ScopeIR.Text.Quoted

/-! Structural checks of the functions of one file: ids are defined once over all of
them, blocks are labelled by position and end in their only terminator, and branches
stay in their function. -/
namespace ScopeIR

namespace Verifier

def noIds : Bits := .ofSize 256

def define (ids : Bits) (id : Id) : Outcome Bits :=
  if id < 0 then Outcome.failAt [toString id] .invalidId
  else match ids.add id with
    | (true, ids) => .ok ids
    | (false, _) => Outcome.failAt [toString id] .duplicateId

def parameters (ids : Bits) : List Parameter → Outcome Bits
  | [] => .ok ids
  | p :: rest => do
    let ids ← (define ids p.id).within ("parameter " ++ Text.quote p.name)
    parameters ids rest

/-- The target is the very block that stands at the position it is labelled with. -/
def staysInside (count : Nat) : Option BlockLink → Bool
  | some target => decide (0 ≤ target.index ∧ target.index < count) &&
      target.place == .own target.index.toNat
  | none => false

def instruction (count : Nat) (ids : Bits) : Instruction → Outcome Bits
  | .call _ dest _ _ _ => define ids dest
  | .branch _ target => if staysInside count target then .ok ids else Outcome.fail .branchOutside
  | .ret .. | .scope .. => .ok ids

def instructions (count : Nat) (label : String) (position : Nat) (ids : Bits) :
    List Instruction → Outcome Bits
  | [] => .ok ids
  | x :: rest => do
    let here := label ++ ": instruction " ++ toString position
    let ids ← (instruction count ids x).within here
    if x.isTerminator && !rest.isEmpty then Outcome.failAt [here] .misplacedTerminator
    else if !x.isTerminator && rest.isEmpty then Outcome.failAt [label] .unterminatedBlock
    else instructions count label (position + 1) ids rest

def blocks (count position : Nat) (ids : Bits) : List Block → Outcome Bits
  | [] => .ok ids
  | block :: rest => do
    let label := "block " ++ toString position
    if block.index ≠ position then Outcome.failAt [label] (.blockIndex block.index)
    else if block.instructions.isEmpty then Outcome.failAt [label] .emptyBlock
    else
      let ids ← instructions count label 0 ids block.instructions
      blocks count (position + 1) ids rest

def function (ids : Bits) (f : Function) : Outcome Bits := do
  let ids ← parameters ids f.parameters
  blocks f.blocks.length 0 ids f.blocks

/-- Checks functions in order; the report names the unreachable blocks of those that
pass. -/
def run (ids : Bits) : List Function → Outcome Unit × List Event
  | [] => (.ok (), [])
  | f :: rest =>
    match (function ids f).within ("function " ++ f.definition.shownName) with
    | .error failure => (.error failure, [])
    | .ok ids =>
      let (outcome, events) := run ids rest
      match f.unreachable with
      | [] => (outcome, events)
      | dead => (outcome, .unreachable f.definition.shownName dead :: events)

end Verifier

def verify (functions : List Function) : Outcome Unit := (Verifier.run Verifier.noIds functions).1

end ScopeIR
