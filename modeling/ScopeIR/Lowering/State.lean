import ScopeIR.Code.Function
import ScopeIR.Lowering.Event
import ScopeIR.Scope.Table

/-! The state of a compilation and its elementary steps. A step that fails keeps the
state, so the report up to the failure is not lost. -/
namespace ScopeIR

/-- A function under construction. Its blocks are kept newest first; code goes to the
newest. -/
structure Frame where
  definition : FunctionDefinition
  parameters : List Parameter := []
  blocks : List Block := []
  closures : List (Id × Option FunctionLink) := []
deriving Repr

/-- A name that was read through the environments, or written if a value is `stored`:
the parameters and scopes it was looked up in, and the code that came out. -/
structure Access where
  name : String
  stored : Option Value
  loc : Location
  parameters : List Parameter
  scopes : ScopeTable
  code : List Instruction
deriving Repr

/-- What lowering starts: a statement, or a step that looks at names. Those that take the
object which names are read from have it as `ref`. -/
inductive Task where
  | statement (type : String)
  | expression (type : String) (ref : Value)
  | assign (ref : Value)
  | modify (ref : Value)
  | known (ref : Value)
  | call (callee : Value)
deriving Repr

/-- A task, with the state that it started from. -/
structure Entry where
  task : Task
  scopes : ScopeTable
  frame : Frame
  functions : List Function
deriving Repr

def Entry.event? (entry : Entry) : Option Event :=
  match entry.task with
  | .statement type => some (.statement type entry.frame.definition.name)
  | .expression type ref => some (.expression type ref)
  | .assign _ | .modify _ | .known _ | .call _ => none

inductive Note where
  | event (event : Event)
  | entry (entry : Entry)
deriving Repr

namespace Note

def event? : Note → Option Event
  | .event e => some e
  | .entry e => e.event?

def entry? : Note → Option Entry
  | .event _ => none
  | .entry e => some e

end Note

/-- The functions finished so far are in output order, the log and the accesses are
newest first. -/
structure Compilation where
  file : String
  scopes : ScopeTable := {}
  functions : List Function := []
  frame : Frame
  log : List Note := []
  accesses : List Access := []
deriving Repr

namespace Compilation

def logged (s : Compilation) (note : Note) : Compilation := { s with log := note :: s.log }

def events (s : Compilation) : List Event := (s.log.filterMap Note.event?).reverse

def entries (s : Compilation) : List Entry := s.log.filterMap Note.entry?

end Compilation

abbrev Lower := EStateM Failure Compilation

namespace Lower

def fail {α : Type} (context : List String) (cause : Cause) : Lower α :=
  throw { context, cause }

def within {α : Type} (context : String) (step : Lower α) : Lower α := fun s =>
  match step s with
  | .ok a s => .ok a s
  | .error failure s => .error (failure.within context) s

/-- What has to be there: scopes on the stack, a block to add to. -/
def require {α : Type} : Option α → Lower α
  | some a => pure a
  | none => fail [] .undefined

def report (event : Event) : Lower Unit := modify (·.logged (.event event))

def enter (task : Task) : Lower Unit :=
  modify fun s => s.logged (.entry ⟨task, s.scopes, s.frame, s.functions⟩)

def functionName : Lower String := return (← get).frame.definition.name

def passOver (position : Unsupported) (type : String) (loc : Location) : Lower Unit := do
  report (.unsupported position type loc (← functionName))

def fresh : Lower Id := modifyGet fun s =>
  let (id, scopes) := s.scopes.fresh
  (id, { s with scopes })

def createScope (kind : ScopeKind) : Lower Id := do
  let id ← modifyGet fun s =>
    let (scope, scopes) := s.scopes.create kind
    (scope.id, { s with scopes })
  report (.createScope id kind)
  return id

def pushScope (id : Id) (kind : ScopeKind) : Lower Unit := do
  modify fun s => { s with scopes := s.scopes.push id }
  report (.pushScope id kind (← get).scopes.depth)

def popScope : Lower Unit := do
  match (← get).scopes.current? with
  | some scope =>
    modify fun s => { s with scopes := s.scopes.pop }
    report (.popScope scope.id scope.kind (← get).scopes.depth)
  | none => return ()

def currentScope : Lower Id := do
  let scope ← require (← get).scopes.current?
  return scope.id

def environment : Lower Id := do
  let scope ← require (← get).scopes.environment?
  return scope.id

def scopeOf? (value : Value) : Lower (Option Scope) := return (← get).scopes.scopeOf? value

def modifyScope (id : Id) (f : Scope → Scope) : Lower Unit :=
  modify fun s => { s with scopes := s.scopes.modifyScope id f }

def declare (id : Id) (name : String) : Lower Unit := modifyScope id (·.declare name)

def assign (id : Id) (name : String) (value : Value) : Lower Unit :=
  modifyScope id fun s => (s.declare name).assign (s.variableOf name) (some value)

def modifyFrame (f : Frame → Frame) : Lower Unit := modify fun s => { s with frame := f s.frame }

def currentBlock : Lower Block := do require (← get).frame.blocks.head?

def append (code : List Instruction) : Lower Unit := do
  match (← get).frame.blocks with
  | block :: older => modifyFrame fun f => { f with blocks := block.add code :: older }
  | [] => fail [] .undefined

def startBlock (scope : Id) (loc : Location) : Lower Unit :=
  modifyFrame fun f =>
    let block : Block := { index := f.blocks.length, scope, location := loc }
    { f with blocks := block :: f.blocks }

def branchToNext (loc : Location) : Lower Unit := do
  append [.branch loc (some (.own (← get).frame.blocks.length))]

/-- Code after a terminator goes into a block of its own, which no branch leads to. -/
def ensureOpen (loc : Location) : Lower Unit := do
  let block ← currentBlock
  if block.isTerminated then startBlock (← currentScope) loc

def emit (loc : Location) (code : List Instruction) : Lower Unit := do
  if code.isEmpty then return ()
  ensureOpen loc
  append code

end Lower

end ScopeIR
