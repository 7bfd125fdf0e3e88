import ScopeIR.Lowering.Basic

/-! Lowering of whole programs. The first block fills the global object, then branches
to the implicit top-level function. -/
namespace ScopeIR

namespace Lower

structure Global where
  target : Variable
  value : Value

def standardGlobals : List Global := [
  ⟨⟨"NaN", "NaN", false⟩, .null⟩,
  ⟨⟨"Infinity", "int", false⟩, .null⟩,
  ⟨⟨"undefined", "Record", false⟩, .null⟩]

def hostGlobals : List String → Lower (List Global)
  | [] => return []
  | name :: rest => do
    let id ← fresh
    let value := Value.const ⟨id, .str name, .ofKind .string⟩
    return ⟨{ name }, value⟩ :: (← hostGlobals rest)

def seedGlobals (scope : Id) (loc : Location) : List Global → Lower Unit
  | [] => return ()
  | g :: rest => do
    let id ← fresh
    modifyScope scope fun s => (s.withVariable g.target).assign g.target (some (.ref id))
    append [.apply loc id (.setField g.target.name) [.ofScope scope, g.value]]
    seedGlobals scope loc rest

def reportFunctions : List Function → Lower Unit
  | [] => return ()
  | f :: rest => do
    report (.function f.name f.definition.signature f.parameters.length f.blocks.length)
    reportFunctions rest

def program (hostNames : List String) (node : Node) : Lower (List Function) :=
  match node with
  | .program loc _ body => do
    let scope ← createScope .global
    startBlock scope loc
    pushScope scope .global
    append [.scope loc scope]
    let id ← fresh
    append [.apply loc id (.setField "globalThis") [.ofScope scope, .ofScope scope]]
    assign scope "globalThis" (.ofScope scope)
    let hosts ← hostGlobals hostNames
    seedGlobals scope loc (standardGlobals ++ hosts)
    let entry := (← get).frame.blocks
    let _ ← function mainName [] body.length loc entry (statements body)
    popScope
    let functions := (← get).functions
    reportFunctions functions
    return functions
  | _ => fail ["no program"] .malformedTree

end Lower

def Compilation.start (file : String) : Compilation :=
  { file, frame := { definition := .user mainName file } }

/-- The functions of a program, enclosing ones last, and what was reported on the way. -/
def lower (file : String) (hostNames : List String) (node : Node) :
    Outcome (List Function) × List Event :=
  match Lower.program hostNames node (.start file) with
  | .ok functions s => (.ok functions, s.events)
  | .error failure s => (.error failure, s.events)

end ScopeIR
