import ScopeIR.Proofs.Frames
import ScopeIR.Proofs.Scopes
import ScopeIR.Proofs.Sources

/-! Runs of the lowering, seen apart from the syntax that causes them. A run is made of
elementary steps; a nested scope or function is a run of its own inside it. What holds of
every step and of its nested runs holds of every lowering. -/
namespace ScopeIR

def Value.isConstant : Value → Bool
  | .const _ => true
  | .ref _ | .scope .. | .func .. => false

inductive TypeKind.Admits : TypeKind → Literal → Prop
  | number (x : Binary64) : Admits TypeKind.number (.num x)
  | string (text : String) : Admits TypeKind.string (.str text)
  | boolean (value : Bool) : Admits TypeKind.boolean (.bool value)
  | regExp (text : String) : Admits TypeKind.regExp (.str text)
  | bigint (value : Int) : Admits TypeKind.bigint (.big value)

def Constant.IsTyped (c : Constant) : Prop :=
  c.type = .ofKind c.type.kind ∧ c.type.kind.Admits c.literal

/-- Constants have a type unless they are null, and function objects refer to one of the
functions of the file. -/
def Value.Proper (file : String) (functions : List Function) : Value → Prop
  | .const c => .const c = null ∨ c.IsTyped
  | .func _ link => ∃ name position f, link = some ⟨.user name file, some position⟩ ∧
      functions[position]? = some f ∧ f.definition = .user name file
  | .ref _ | .scope .. => True

def Instruction.defined? : Instruction → Option Id
  | .call _ dest _ _ _ => some dest
  | .scope _ id => some id
  | .ret .. | .branch .. => none

def Instruction.dest? : Instruction → Option Id
  | .call _ dest _ _ _ => some dest
  | .ret .. | .branch .. | .scope .. => none

def Instruction.declares? : Instruction → Option Id
  | .scope _ id => some id
  | .call .. | .ret .. | .branch .. => none

def Node.parameterName : Node → String
  | .identifier _ name => name
  | _ => ""

def parametersFrom (next : Nat) : List Node → List Parameter
  | [] => []
  | node :: rest =>
    { id := next, name := node.parameterName, location := node.location } ::
      parametersFrom (next + 1) rest

def parentLink (loc : Location) (dest scope : Id) (parent : Value) : Instruction :=
  .apply loc dest (.setField parentName) [.ofScope scope, parent]

def generatedName (enclosing : String) (id : Nat) : String :=
  enclosing ++ "__" ++ toString (id : Id)

namespace Compilation

def spend (s : Compilation) : Compilation := { s with scopes := s.scopes.fresh.2 }

/-- The state in which the parameters of a function are bound: the frame holds its entry
block, which links the activation record to the implicit parameter. -/
def enter (s : Compilation) (definition : FunctionDefinition) (params : List Node)
    (loc : Location) (before : List Block) : Compilation :=
  let parent := s.scopes.next
  let scope := parent + 1 + params.length
  let scopes := ({ s.scopes with next := scope }.create .function).2.push scope
  { s with
    scopes := { scopes with next := scope + 2 }
    frame := {
      definition
      parameters := { id := parent, name := parentName, location := loc } ::
        parametersFrom (parent + 1) params
      blocks := {
        index := before.length
        scope
        instructions := [.scope loc scope, parentLink loc (scope + 1 : Nat) scope (.ref parent)]
        location := loc } :: before }
    log := .event (.pushScope scope .function (s.scopes.stack.length + 1)) ::
      .event (.createScope scope .function) :: s.log }

/-- The state in which the statements of a block are lowered: the block has a scope of its
own, linked to the environment around it. -/
def enterBlock (s : Compilation) (loc : Location) (parent : Id) : Compilation :=
  let scope := s.scopes.next
  { s with
    scopes := { (s.scopes.create .block).2.push scope with next := scope + 2 }
    frame := (s.frame.advance scope loc).extend [.apply loc scope .newObject [],
      parentLink loc (scope + 1 : Nat) scope (.ofScope parent)] }

/-- Leaves a block for the scope around it. What follows goes to a new block, unless
nothing can follow. -/
def leaveBlock (s : Compilation) (loc : Location) (parent : Id) : Compilation :=
  { s with
    scopes := s.scopes.pop
    frame := if s.frame.isOpen then s.frame.advance parent loc else s.frame }

def leave (s : Compilation) (loc : Location) (outer : Frame) : Compilation :=
  { s with
    scopes := s.scopes.pop
    functions := s.functions ++ [s.frame.finish s.file loc]
    frame := outer }

def nestedName (s : Compilation) : String := generatedName s.frame.definition.name s.scopes.next

/-- Functions that are declared in one called `main` keep their names. -/
def nameFor (s : Compilation) (declared : Option String) : String :=
  if s.frame.definition.name = mainName then declared.getD s.nestedName else s.nestedName

theorem nameFor_none (s : Compilation) : s.nameFor none = s.nestedName := ite_self _

end Compilation

def Frame.addClosure (f : Frame) (id : Id) (link : FunctionLink) : Frame :=
  { f with closures := f.closures ++ [(id, some link)] }

/-- A compilation with code that is lowered but not in a block yet. -/
structure Draft where
  state : Compilation
  code : List Instruction

/-- A write to a name, lowered in another function, stored the value. -/
def Borrowed (accesses : List Access) (parameters : List Parameter) (v : Value) : Prop :=
  ∃ a ∈ accesses, a.stored = some v ∧ a.parameters ≠ parameters

namespace Draft

def body (d : Draft) : List Instruction := d.state.frame.code ++ d.code

def defined (d : Draft) : List Id :=
  d.state.frame.parameters.map (·.id) ++ d.body.filterMap Instruction.defined?

def Has (d : Draft) (value : Value) : Prop := value.isConstant ∨ value.id ∈ d.defined

def Borrows (d : Draft) (value : Value) : Prop :=
  Borrowed d.state.accesses d.state.frame.parameters value

/-- What operands are: values that are at hand or borrowed. -/
structure Usable (d : Draft) (value : Value) : Prop where
  source : d.Has value ∨ d.Borrows value
  proper : value.Proper d.state.file d.state.functions
  bound : value.id < d.state.scopes.next

end Draft

/-- What values stand for: references to scopes denote objects, all others denote no scope,
and no function object is the primitive that links scopes. -/
def ScopeTable.Tame (t : ScopeTable) : Value → Prop
  | .const _ => True
  | .scope _ x => t.kind? x = some .object ∨ t.kind? x = some .global
  | .ref id => id < t.next ∧ t.kind? id = none
  | .func id link => (id < t.next ∧ t.kind? id = none) ∧
      ∀ l ∈ link, l.definition ≠ .setField parentName

structure Compilation.Tame (s : Compilation) (value : Value) : Prop where
  proper : value.Proper s.file s.functions
  scope : s.scopes.Tame value
  bound : value.id < s.scopes.next

def ScopeTable.Innermost (t : ScopeTable) (x : Id) : Prop :=
  ∃ kind rest, t.chain = (x, kind) :: rest

/-- The calls that are lowered. Functions are called with the innermost environment of the
caller, before the arguments. -/
inductive CallForm (s : Compilation) : FunctionDefinition → List Value → Prop
  | getField (name : String) (object : Value) : CallForm s (.getField name) [object]
  | setField (name : String) (object value : Value) : CallForm s (.setField name) [object, value]
  | getFieldDynamic (object key : Value) : CallForm s .getFieldDynamic [object, key]
  | setFieldDynamic (object key value : Value) : CallForm s .setFieldDynamic [object, key, value]
  | unary (op : String) (value : Value) : CallForm s (.unaryOperator op) [value]
  | binary (op : String) (left right : Value) : CallForm s (.binaryOperator op) [left, right]
  | leading (op : String) (left right : Value) : CallForm s (.leadingOperator op) [left, right]
  | logical (op : String) (left right : Value) : CallForm s (.logicalOperator op) [left, right]
  | conditional (test yes no : Value) : CallForm s .conditional [test, yes, no]
  | dynamic (callee : Value) (x : Id) (arguments : List Value) (here : s.scopes.Innermost x) :
      CallForm s .callDynamic (callee :: .ofScope x :: arguments)
  | direct (name : String) (position : Nat) (f : Function) (x : Id) (arguments : List Value)
      (target : s.functions[position]? = some f) (definition : f.definition = .user name s.file)
      (here : s.scopes.Innermost x) (count : arguments.length = f.parameters.length - 1) :
      CallForm s (.user name s.file) (.ofScope x :: arguments)

/-- Reads of the parent field, the first from an object and each other from the result of
the one before, with the last result. -/
inductive ParentPath (loc : Location) : Nat → Value → List Instruction → Value → Prop
  | here (object : Value) : ParentPath loc 0 object [] object
  | up {links : Nat} {id : Id} {object last : Value} {code : List Instruction} :
      ParentPath loc links (.ref id) code last →
      ParentPath loc (links + 1) object
        (.apply loc id (.getField parentName) [object] :: code) last

namespace Access

def environments (a : Access) : List Scope := a.scopes.environments

def distance (a : Access) : Nat :=
  (a.environments.findIdx? fun e => (e.declared? a.name).isSome).getD (a.environments.length - 1)

def final (a : Access) (id : Id) (object : Value) : Instruction :=
  match a.stored with
  | none => .apply a.loc id (.getField a.name) [object]
  | some value => .apply a.loc id (.setField a.name) [object, value]

/-- The code follows one parent link for each environment passed, then accesses the name. -/
def Addressed (a : Access) : Prop :=
  ∃ innermost path last id, a.environments.head? = some innermost ∧
    ParentPath a.loc a.distance innermost.value path last ∧ a.code = path ++ [a.final id last]

end Access

def LinksScope (t : ScopeTable) (callee : FunctionDefinition) (operands : List Value) : Prop :=
  ∃ x value, callee = .setField parentName ∧ operands = [.ofScope x, value] ∧
    t.kind? x ≠ some .object ∧ t.kind? x ≠ some .global

/-- Runs, with the work they do. Calls that set the parent field of an environment are
`loose`: they happen only in programs that name the field themselves. -/
inductive Run (loose : Prop) : Draft → Work → Draft → Prop
  | refl (d : Draft) : Run loose d {} d
  | trans {d d₁ d₂ : Draft} {w w₁ : Work} :
      Run loose d w d₁ → Run loose d₁ w₁ d₂ → Run loose d (w ++ w₁) d₂
  | report (s : Compilation) (code : List Instruction) (note : Note) :
      Run loose ⟨s, code⟩ {} ⟨s.logged note, code⟩
  | call (s : Compilation) (code : List Instruction) (loc : Location)
      (callee : FunctionDefinition) (operands : List Value) (form : CallForm s callee operands)
      (usable : ∀ v ∈ operands, Draft.Usable ⟨s, code⟩ v)
      (links : LinksScope s.scopes callee operands → loose) :
      Run loose ⟨s, code⟩ {}
        ⟨s.spend, code ++ [.apply loc s.scopes.next callee operands]⟩
  | constant (s : Compilation) (code : List Instruction) (key : TypeKind × String)
      (literal : Literal) (type : TypeInfo)
      (typed : Constant.IsTyped ⟨s.scopes.next, literal, type⟩) :
      Run loose ⟨s, code⟩ {}
        ⟨{ s with scopes := { s.scopes.fresh.2 with
          constants := (key, ⟨s.scopes.next, literal, type⟩) :: s.scopes.constants } }, code⟩
  | create (s : Compilation) (code : List Instruction) (loc : Location) (kind : ScopeKind)
      (literals : List (TypeKind × Id)) (plain : kind = .object ∨ kind = .literal) :
      Run loose ⟨s, code⟩ {}
        ⟨{ s with scopes := { (s.scopes.create kind).2 with literals } },
          code ++ [.apply loc s.scopes.next .newObject []]⟩
  | declare (s : Compilation) (code : List Instruction) (x : Id) (name : String) :
      Run loose ⟨s, code⟩ {}
        ⟨{ s with scopes := s.scopes.modifyScope x (·.declare name) }, code⟩
  | assign (s : Compilation) (code : List Instruction) (x : Id) (name : String) (value : Value)
      (has : Draft.Has ⟨s, code⟩ value) (tame : s.Tame value)
      (target : x ∈ Draft.defined ⟨s, code⟩ ∨ s.scopes.kind? x = some .object ∨
        s.scopes.kind? x = some .global) :
      Run loose ⟨s, code⟩ {} ⟨{ s with scopes := s.scopes.record x name value }, code⟩
  | read (s : Compilation) (code : List Instruction) (a : Access)
      (parameters : a.parameters = s.frame.parameters) (chain : a.scopes.chain = s.scopes.chain)
      (emitted : a.code <:+ code) (stored : a.stored = none)
      (addressed : Parameter.declared? a.name a.parameters = none → a.Addressed) :
      Run loose ⟨s, code⟩ {} ⟨{ s with accesses := a :: s.accesses }, code⟩
  | write (s : Compilation) (code : List Instruction) (a : Access) (owner : Id) (value : Value)
      (has : Draft.Has ⟨s, code⟩ value) (tame : s.Tame value)
      (parameters : a.parameters = s.frame.parameters) (chain : a.scopes.chain = s.scopes.chain)
      (emitted : a.code <:+ code) (stored : a.stored = some value) (addressed : a.Addressed) :
      Run loose ⟨s, code⟩ {}
        ⟨{ s with scopes := s.scopes.record owner a.name value, accesses := a :: s.accesses },
          code⟩
  | object {s s₁ : Compilation} {code code₁ : List Instruction} {w : Work} {x : Id}
      (kind : s.scopes.kind? x = some .object)
      (inner : Run loose ⟨{ s with scopes := s.scopes.push x }, code⟩ w ⟨s₁, code₁⟩) :
      Run loose ⟨s, code⟩ w ⟨{ s₁ with scopes := s₁.scopes.pop }, code₁⟩
  | block {s s₁ : Compilation} {w : Work} {parent : Id} {kind : ScopeKind}
      {rest : List (Id × ScopeKind)} (loc : Location) (opened : s.frame.isOpen)
      (chain : s.scopes.chain = (parent, kind) :: rest) (own : parent ∈ Draft.defined ⟨s, []⟩)
      (inner : Run loose ⟨s.enterBlock loc parent, []⟩ w ⟨s₁, []⟩) :
      Run loose ⟨s, []⟩ w ⟨s₁.leaveBlock loc parent, []⟩
  | function {s s₁ : Compilation} {w : Work} {declared : Option String} (code : List Instruction)
      (definition : FunctionDefinition) (params body : List Node) (loc : Location)
      (named : definition = .user (s.nameFor declared) s.file)
      (settled : Node.anyReturns body = false → Sealed False s₁.frame.blocks.tail)
      (inner : Run loose ⟨s.spend.enter definition params loc [], []⟩ w ⟨s₁, []⟩) :
      Run loose ⟨s, code⟩
        { functions := w.functions ++ [⟨params, body⟩]
          names := Node.namesWith declared w.names }
        ⟨s₁.leave loc (s.frame.addClosure s.scopes.next ⟨definition, some s₁.functions.length⟩),
          code ++ [.apply loc s.scopes.next .newObject []]⟩
  | start (s : Compilation) (code : List Instruction) (scope : Id) (loc : Location)
      (closed : s.frame.isOpen = false) (some : s.frame.blocks ≠ [])
      (here : s.scopes.Innermost scope) :
      Run loose ⟨s, code⟩ {} ⟨{ s with frame := s.frame.start scope loc }, code⟩
  | place (s : Compilation) (code : List Instruction) (opened : s.frame.isOpen) :
      Run loose ⟨s, code⟩ {} ⟨{ s with frame := s.frame.extend code }, []⟩
  | ret (s : Compilation) (code : List Instruction) (loc : Location) (value : Value)
      (opened : s.frame.isOpen) (has : Draft.Has ⟨s, code⟩ value) (tame : s.Tame value) :
      Run loose ⟨s, code⟩ { returns := true }
        ⟨{ s with frame := s.frame.extend (code ++ [.ret loc (some value)]) }, []⟩

end ScopeIR
