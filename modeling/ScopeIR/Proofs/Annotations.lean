import Mathlib.Data.List.Basic
import ScopeIR.Lowering.Program

/-! Annotations: the places in the source text that code is marked with, and the file that its
functions are named after. Other annotations can be put in everywhere, and what is looked up in
scopes, frames and trees does not depend on them. -/
namespace ScopeIR

structure Marking where
  place : Location → Location
  file : String → String
  definition : FunctionDefinition → FunctionDefinition

/-- A marking under which primitives stay what they are, and functions of one file become
functions of another with the same names. -/
structure Relabelling extends Marking where
  nowhere : place {} = {}
  name : ∀ d, (definition d).name = d.name
  primitive : ∀ d, d.name = d.signature → definition d = d
  user : ∀ name source, definition (.user name source) = .user name (file source)

instance : Coe Relabelling Marking := ⟨Relabelling.toMarking⟩

/-- Data that can be given other annotations. -/
class Annotated (α : Type) where
  relabel : Marking → α → α

export Annotated (relabel)

instance : Annotated Unit := ⟨fun _ a => a⟩
instance : Annotated Bool := ⟨fun _ a => a⟩
instance : Annotated Nat := ⟨fun _ a => a⟩
instance : Annotated Id := ⟨fun _ a => a⟩
instance : Annotated String := ⟨fun _ a => a⟩
instance : Annotated Constant := ⟨fun _ a => a⟩
instance : Annotated Variable := ⟨fun _ a => a⟩

instance {α : Type} [Annotated α] : Annotated (Option α) := ⟨fun m => Option.map (relabel m)⟩
instance {α : Type} [Annotated α] : Annotated (List α) := ⟨fun m => List.map (relabel m)⟩
instance {α β : Type} [Annotated α] [Annotated β] : Annotated (α × β) :=
  ⟨fun m p => (relabel m p.1, relabel m p.2)⟩

instance : Annotated FunctionLink :=
  ⟨fun m link => { link with definition := m.definition link.definition }⟩

def Value.relabel (m : Marking) : Value → Value
  | .func id link => .func id (Annotated.relabel m link)
  | .ref id => .ref id
  | .const c => .const c
  | .scope id x => .scope id x

instance : Annotated Value := ⟨Value.relabel⟩

def Instruction.relabel (m : Marking) : Instruction → Instruction
  | .call loc dest receiver callee operands =>
    .call (m.place loc) dest (Annotated.relabel m receiver) (m.definition callee)
      (Annotated.relabel m operands)
  | .ret loc value => .ret (m.place loc) (Annotated.relabel m value)
  | .branch loc target => .branch (m.place loc) target
  | .scope loc id => .scope (m.place loc) id

instance : Annotated Instruction := ⟨Instruction.relabel⟩

instance : Annotated Block := ⟨fun m block => { block with
  instructions := relabel m block.instructions, location := m.place block.location }⟩

instance : Annotated Parameter := ⟨fun m p => { p with location := m.place p.location }⟩

instance : Annotated Function := ⟨fun m f => {
  file := m.file f.file
  definition := m.definition f.definition
  parameters := relabel m f.parameters
  blocks := relabel m f.blocks
  closures := relabel m f.closures }⟩

instance : Annotated Assignment := ⟨fun m a => { a with value := relabel m a.value }⟩

instance : Annotated Scope := ⟨fun m s => { s with assignments := relabel m s.assignments }⟩

def Slots.map {α : Type} {idOf : α → Int} (slots : Slots idOf) (f : α → α)
    (hf : ∀ a, idOf (f a) = idOf a) : Slots idOf where
  items := slots.items.map (Option.map f)
  placed i b hb := by
    rw [List.getElem?_map] at hb
    obtain ⟨item, hitem, hb⟩ := Option.map_eq_some_iff.mp hb
    obtain ⟨a, rfl, rfl⟩ := Option.map_eq_some_iff.mp hb
    rw [hf]
    exact slots.placed i a hitem

instance : Annotated ScopeTable :=
  ⟨fun m t => { t with arena := t.arena.map (relabel m) fun _ => rfl }⟩

instance : Annotated Frame := ⟨fun m f => {
  definition := m.definition f.definition
  parameters := relabel m f.parameters
  blocks := relabel m f.blocks
  closures := relabel m f.closures }⟩

instance : Annotated Access := ⟨fun m a => { a with
  stored := relabel m a.stored
  loc := m.place a.loc
  parameters := relabel m a.parameters
  scopes := relabel m a.scopes
  code := relabel m a.code }⟩

instance : Annotated Compilation := ⟨fun m s => { s with
  file := m.file s.file
  scopes := relabel m s.scopes
  functions := relabel m s.functions
  frame := relabel m s.frame
  accesses := relabel m s.accesses }⟩

instance : Annotated Lowered :=
  ⟨fun m e => { code := relabel m e.code, value := relabel m e.value }⟩

def Key.relabel (m : Marking) : Key → Key
  | .name text => .name text
  | .computed value => .computed (Annotated.relabel m value)

instance : Annotated Key := ⟨Key.relabel⟩

instance : Annotated Place := ⟨fun m place => {
  code := relabel m place.code
  object := relabel m place.object
  key := relabel m place.key
  loc := m.place place.loc }⟩

instance : Annotated Lower.Modified := ⟨fun m a => {
  code := relabel m a.code
  old := relabel m a.old
  new := relabel m a.new }⟩

instance : Annotated Lower.Global := ⟨fun m g => { g with value := relabel m g.value }⟩

section

variable {m : Marking} {α β : Type} [Annotated α] [Annotated β]

@[simp] theorem relabel_bool (a : Bool) : relabel m a = a := rfl
@[simp] theorem relabel_id (a : Id) : relabel m a = a := rfl
@[simp] theorem relabel_constant (a : Constant) : relabel m a = a := rfl

@[simp] theorem relabel_some (a : α) : relabel m (some a) = some (relabel m a) := rfl
@[simp] theorem relabel_nil : relabel m ([] : List α) = [] := rfl
@[simp] theorem relabel_pair (a : α) (b : β) : relabel m (a, b) = (relabel m a, relabel m b) := rfl

@[simp] theorem relabel_cons (a : α) (as : List α) :
    relabel m (a :: as) = relabel m a :: relabel m as := rfl

@[simp] theorem relabel_append (as bs : List α) :
    relabel m (as ++ bs) = relabel m as ++ relabel m bs := List.map_append

@[simp] theorem length_relabel (as : List α) : (relabel m as).length = as.length :=
  List.length_map _

@[simp] theorem isEmpty_relabel (as : List α) : (relabel m as).isEmpty = as.isEmpty := by
  cases as <;> rfl

theorem relabel_reverse (as : List α) : relabel m as.reverse = (relabel m as).reverse :=
  List.map_reverse

@[simp] theorem relabel_ref (id : Id) : relabel m (Value.ref id) = .ref id := rfl
@[simp] theorem relabel_const (c : Constant) : relabel m (Value.const c) = .const c := rfl
@[simp] theorem relabel_ofScope (id : Id) : relabel m (Value.ofScope id) = .ofScope id := rfl
@[simp] theorem relabel_null : relabel m Value.null = .null := rfl

@[simp] theorem relabel_func (id : Id) (link : Option FunctionLink) :
    relabel m (Value.func id link) = .func id (relabel m link) := rfl

@[simp] theorem relabel_ret (loc : Location) (value : Option Value) :
    relabel m (Instruction.ret loc value) = .ret (m.place loc) (relabel m value) := rfl

@[simp] theorem relabel_declares (loc : Location) (id : Id) :
    relabel m (Instruction.scope loc id) = .scope (m.place loc) id := rfl

@[simp] theorem relabel_apply (loc : Location) (id : Id) (callee : FunctionDefinition)
    (operands : List Value) : relabel m (Instruction.apply loc id callee operands) =
      .apply (m.place loc) id (m.definition callee) (relabel m operands) := by
  have hoperands : relabel m (operands.map some) = (relabel m operands).map some := by
    show (operands.map some).map (relabel m) = (operands.map (relabel m)).map some
    rw [List.map_map, List.map_map]
    rfl
  show Instruction.call _ _ none _ (relabel m (operands.map some)) = _
  rw [hoperands]
  rfl

@[simp] theorem relabel_lowered (code : List Instruction) (value : Value) :
    relabel m (Lowered.mk code value) = ⟨relabel m code, relabel m value⟩ := rfl

@[simp] theorem Lowered.code_relabel (e : Lowered) : (relabel m e).code = relabel m e.code := rfl

@[simp] theorem Lowered.value_relabel (e : Lowered) :
    (relabel m e).value = relabel m e.value := rfl

@[simp] theorem relabel_computed (value : Value) :
    relabel m (Key.computed value) = .computed (relabel m value) := rfl

@[simp] theorem relabel_place (code : List Instruction) (object : Value) (key : Key)
    (loc : Location) : relabel m (Place.mk code object key loc) =
      ⟨relabel m code, relabel m object, relabel m key, m.place loc⟩ := rfl

@[simp] theorem Place.code_relabel (place : Place) :
    (relabel m place).code = relabel m place.code := rfl

@[simp] theorem relabel_modified (code : List Instruction) (old new : Value) :
    relabel m (Lower.Modified.mk code old new) =
      ⟨relabel m code, relabel m old, relabel m new⟩ := rfl

@[simp] theorem Lower.Modified.code_relabel (a : Lower.Modified) :
    (relabel m a).code = relabel m a.code := rfl

@[simp] theorem Lower.Modified.new_relabel (a : Lower.Modified) :
    (relabel m a).new = relabel m a.new := rfl

@[simp] theorem Parameter.name_relabel (p : Parameter) : (relabel m p).name = p.name := rfl
@[simp] theorem Parameter.value_relabel (p : Parameter) : (relabel m p).value = p.value := rfl
@[simp] theorem Parameter.relabel_value (p : Parameter) : relabel m p.value = p.value := rfl

@[simp] theorem Parameter.location_relabel (p : Parameter) :
    (relabel m p).location = m.place p.location := rfl

@[simp] theorem Lower.Global.target_relabel (g : Lower.Global) :
    (relabel m g).target = g.target := rfl

@[simp] theorem Lower.Global.value_relabel (g : Lower.Global) :
    (relabel m g).value = relabel m g.value := rfl

theorem isTerminated_relabel (block : Block) :
    (relabel m block).isTerminated = block.isTerminated := by
  have hkind : Instruction.isTerminator ∘ relabel m = Instruction.isTerminator := by
    funext i
    cases i <;> rfl
  show (((block.instructions.map (relabel m)).getLast?).filter _).isSome = _
  rw [List.getLast?_map, Option.filter_map, hkind, Option.isSome_map]
  rfl

theorem add_relabel (block : Block) (code : List Instruction) :
    (relabel m block).add (relabel m code) = relabel m (block.add code) := by
  show Block.mk _ _ (relabel m block.instructions ++ relabel m code) _ = Block.mk _ _ _ _
  rw [← relabel_append]
  rfl

theorem declared?_relabel (name : String) (parameters : List Parameter) :
    Parameter.declared? name (relabel m parameters) =
      relabel m (Parameter.declared? name parameters) := by
  unfold Parameter.declared?
  split
  · rfl
  · show (parameters.map (relabel m)).tail.find? _ = _
    rw [← List.map_tail, List.find?_map]
    rfl

end

def Relabelling.identity : Relabelling where
  place := id
  file := id
  definition := id
  nowhere := rfl
  name _ := rfl
  primitive _ _ := rfl
  user _ _ := rfl

def Marking.after (n m : Marking) : Marking where
  place := n.place ∘ m.place
  file := n.file ∘ m.file
  definition := n.definition ∘ m.definition

class LawfulAnnotated (α : Type) [Annotated α] : Prop where
  relabel_identity : ∀ a : α, relabel Relabelling.identity a = a
  relabel_relabel : ∀ (n m : Marking) (a : α), relabel n (relabel m a) = relabel (n.after m) a

export LawfulAnnotated (relabel_identity relabel_relabel)

section

variable {α β : Type} [Annotated α] [LawfulAnnotated α] [Annotated β] [LawfulAnnotated β]

instance : LawfulAnnotated Id := ⟨fun _ => rfl, fun _ _ _ => rfl⟩
instance : LawfulAnnotated Parameter := ⟨fun _ => rfl, fun _ _ _ => rfl⟩
instance : LawfulAnnotated FunctionLink := ⟨fun _ => rfl, fun _ _ _ => rfl⟩

instance : LawfulAnnotated (Option α) where
  relabel_identity o := by
    cases o with
    | none => rfl
    | some a => exact congrArg some (relabel_identity a)
  relabel_relabel n m o := by
    cases o with
    | none => rfl
    | some a => exact congrArg some (relabel_relabel n m a)

instance : LawfulAnnotated (List α) where
  relabel_identity as := by
    induction as with
    | nil => rfl
    | cons a as ih => exact congrArg₂ List.cons (relabel_identity a) ih
  relabel_relabel n m as := by
    induction as with
    | nil => rfl
    | cons a as ih => exact congrArg₂ List.cons (relabel_relabel n m a) ih

instance : LawfulAnnotated (α × β) where
  relabel_identity p := congrArg₂ Prod.mk (relabel_identity p.1) (relabel_identity p.2)
  relabel_relabel n m p := congrArg₂ Prod.mk (relabel_relabel n m p.1) (relabel_relabel n m p.2)

instance : LawfulAnnotated Value where
  relabel_identity v := by
    cases v with
    | func id link => exact congrArg (Value.func id) (relabel_identity link)
    | ref | const | scope => rfl
  relabel_relabel n m v := by
    cases v with
    | func id link => exact congrArg (Value.func id) (relabel_relabel n m link)
    | ref | const | scope => rfl

instance : LawfulAnnotated Instruction where
  relabel_identity x := by
    cases x with
    | call loc dest receiver callee operands =>
      exact congrArg₂ (Instruction.call loc dest · callee ·) (relabel_identity receiver)
        (relabel_identity operands)
    | ret loc value => exact congrArg (Instruction.ret loc) (relabel_identity value)
    | branch | scope => rfl
  relabel_relabel n m x := by
    cases x with
    | call loc dest receiver callee operands =>
      exact congrArg₂ (Instruction.call _ dest · _ ·) (relabel_relabel n m receiver)
        (relabel_relabel n m operands)
    | ret loc value => exact congrArg (Instruction.ret _) (relabel_relabel n m value)
    | branch | scope => rfl

instance : LawfulAnnotated Block where
  relabel_identity block :=
    congrArg (Block.mk block.index block.scope · block.location)
      (relabel_identity block.instructions)
  relabel_relabel n m block :=
    congrArg (Block.mk block.index block.scope · _) (relabel_relabel n m block.instructions)

instance : LawfulAnnotated Function where
  relabel_identity f := by
    show Function.mk f.file f.definition (relabel _ f.parameters) (relabel _ f.blocks)
      (relabel _ f.closures) = f
    rw [relabel_identity, relabel_identity, relabel_identity]
  relabel_relabel n m f := by
    show Function.mk _ _ (relabel n (relabel m f.parameters)) (relabel n (relabel m f.blocks))
      (relabel n (relabel m f.closures)) = _
    rw [relabel_relabel, relabel_relabel, relabel_relabel]
    rfl

end

namespace Relabelling

variable (m : Relabelling)

@[simp] theorem definition_getField (name : String) :
    m.definition (.getField name) = .getField name := m.primitive _ rfl

@[simp] theorem definition_setField (name : String) :
    m.definition (.setField name) = .setField name := m.primitive _ rfl

@[simp] theorem definition_newObject : m.definition .newObject = .newObject := m.primitive _ rfl

@[simp] theorem definition_getFieldDynamic : m.definition .getFieldDynamic = .getFieldDynamic :=
  m.primitive _ rfl

@[simp] theorem definition_setFieldDynamic : m.definition .setFieldDynamic = .setFieldDynamic :=
  m.primitive _ rfl

@[simp] theorem definition_callDynamic : m.definition .callDynamic = .callDynamic :=
  m.primitive _ rfl

end Relabelling

theorem FunctionDefinition.name_leadingOperator (op : String) :
    (leadingOperator op).name = (leadingOperator op).signature := by
  unfold leadingOperator
  split
  · split <;> rfl
  · rfl

theorem FunctionDefinition.name_compoundOperator (op : String) :
    (compoundOperator op).name = (compoundOperator op).signature := by
  unfold compoundOperator
  split <;> rfl

theorem FunctionDefinition.name_user_ne (name file : String) :
    (user name file).name ≠ (user name file).signature := by
  intro h
  have h : name.length = (file ++ "." ++ name).length := congrArg String.length h
  rw [String.length_append, String.length_append] at h
  have hdot : ".".length = 1 := rfl
  omega

section

variable {m : Marking}

theorem lookup_relabel {α β : Type} [BEq α] [Annotated β] (items : List (α × β)) (key : α) :
    (items.map fun item => (item.1, relabel m item.2)).lookup key =
      relabel m (items.lookup key) := by
  induction items with
  | nil => rfl
  | cons item rest ih =>
    rw [List.map_cons, List.lookup_cons, List.lookup_cons, ih]
    cases key == item.1 <;> rfl

theorem set_relabel {α : Type} [Annotated α] (name : String) (item : α) (items : Names α) :
    Names.set name (relabel m item) (relabel m items) = relabel m (Names.set name item items) := by
  induction items with
  | nil => rfl
  | cons first rest ih =>
    show (if first.1 == name then (name, relabel m item) :: relabel m rest
      else (first.1, relabel m first.2) :: Names.set name (relabel m item) (relabel m rest)) =
      relabel m (if first.1 == name then (name, item) :: rest
        else (first.1, first.2) :: Names.set name item rest)
    rw [ih]
    split <;> rfl

namespace Scope

theorem assigned?_relabel (s : Scope) (name : String) :
    (relabel m s).assigned? name = relabel m (s.assigned? name) :=
  lookup_relabel s.assignments name

theorem assign_relabel (s : Scope) (v : Variable) (value : Option Value) :
    (relabel m s).assign v (relabel m value) = relabel m (s.assign v value) := by
  show Scope.mk s.id s.kind s.locals (Names.set v.name (relabel m (Assignment.mk value v))
    (relabel m s.assignments)) = _
  rw [set_relabel]
  rfl

end Scope

namespace Slots

variable {α : Type} {idOf : α → Int} (slots : Slots idOf) {f g k : α → α}
  (hf : ∀ a, idOf (f a) = idOf a)

theorem get?_map (x : Int) : (slots.map f hf).get? x = (slots.get? x).map f := by
  unfold get? map
  split
  · rfl
  · rw [List.getElem?_map]
    cases slots.items[x.toNat]? <;> rfl

theorem put_map (a : α) : (slots.map f hf).put (f a) = (slots.put a).map f hf := by
  ext1
  unfold put map
  simp only [hf]
  split
  · rfl
  · simp [List.rightpad, List.map_set]

theorem modify_map (h : ∀ a, g (f a) = f (k a)) (id : Int) :
    (slots.map f hf).modify id g = (slots.modify id k).map f hf := by
  unfold modify
  rw [get?_map]
  cases slots.get? id with
  | none => rfl
  | some a =>
    dsimp only [Option.map_some]
    rw [h, put_map]

end Slots

namespace ScopeTable

variable (t : ScopeTable)

theorem scope?_relabel (id : Id) : (relabel m t).scope? id = relabel m (t.scope? id) :=
  t.arena.get?_map (f := relabel m) (fun _ => rfl) id

theorem create_relabel (kind : ScopeKind) :
    (relabel m t).create kind = relabel m (t.create kind) := by
  have hput := t.arena.put_map (f := relabel m) (fun _ => rfl) { id := t.next, kind }
  show (_, { t with next := t.next + 1, arena := (t.arena.map (relabel m) fun _ => rfl).put _ }) =
    (_, { t with next := t.next + 1, arena := (t.arena.put _).map (relabel m) fun _ => rfl })
  rw [← hput]
  rfl

theorem entered_relabel : (relabel m t).entered = relabel m t.entered := by
  show t.stack.filterMap (relabel m t).scope? = (t.stack.filterMap t.scope?).map (relabel m)
  rw [List.map_filterMap]
  exact List.filterMap_congr fun id _ => t.scope?_relabel id

theorem current?_relabel : (relabel m t).current? = relabel m t.current? := by
  unfold current?
  rw [entered_relabel]
  exact List.head?_map

theorem environments_relabel : (relabel m t).environments = relabel m t.environments := by
  unfold environments
  rw [entered_relabel]
  exact List.filter_map

theorem environment?_relabel : (relabel m t).environment? = relabel m t.environment? := by
  unfold environment?
  rw [environments_relabel]
  exact List.head?_map

theorem lookup?_relabel (name : String) :
    (relabel m t).lookup? name = relabel m (t.lookup? name) := by
  unfold lookup?
  rw [environments_relabel]
  show ((t.environments.map (relabel m)).zipIdx.findSome? _) = Option.map (relabel m) _
  rw [List.zipIdx_map, List.findSome?_map, List.map_findSome?]
  congr 1
  funext entry
  show Option.map _ (entry.1.declared? name) = Option.map (relabel m) (Option.map _ _)
  rw [Option.map_map]
  rfl

theorem scopeOf?_relabel (v : Value) :
    (relabel m t).scopeOf? (relabel m v) = relabel m (t.scopeOf? v) := by
  have hregistered : ∀ id, (t.registry.get? id).bind (relabel m t).scope? =
      relabel m ((t.registry.get? id).bind t.scope?) := by
    intro id
    rw [funext t.scope?_relabel]
    exact Option.map_bind.symm
  cases v with
  | scope id x => exact t.scope?_relabel x
  | const c => rfl
  | ref id => exact hregistered id
  | func id link => exact hregistered id

theorem resolve?_relabel (name : String) (v : Value) :
    (relabel m t).resolve? name (some (relabel m v)) = relabel m (t.resolve? name (some v)) := by
  show ((relabel m t).scopeOf? (relabel m v)).bind _ = relabel m ((t.scopeOf? v).bind _)
  rw [scopeOf?_relabel]
  cases t.scopeOf? v with
  | none => rfl
  | some s =>
    show (s.declared? name).bind _ = relabel m ((s.declared? name).bind _)
    cases s.declared? name <;> rfl

theorem known?_relabel (name : String) (v : Value) :
    (relabel m t).known? name (some (relabel m v)) = relabel m (t.known? name (some v)) := by
  show ((relabel m t).scopeOf? (relabel m v)).bind _ = relabel m ((t.scopeOf? v).bind _)
  rw [scopeOf?_relabel]
  cases t.scopeOf? v with
  | none => rfl
  | some s => exact s.assigned?_relabel name

theorem modifyScope_relabel {f g : Scope → Scope} (id : Id)
    (h : ∀ s, g (relabel m s) = relabel m (f s)) :
    (relabel m t).modifyScope id g = relabel m (t.modifyScope id f) := by
  have hmodify := t.arena.modify_map (f := relabel m) (fun _ => rfl) h id
  show { t with arena := (t.arena.map (relabel m) fun _ => rfl).modify id g } =
    { t with arena := (t.arena.modify id f).map (relabel m) fun _ => rfl }
  rw [hmodify]

theorem push_relabel (id : Id) : (relabel m t).push id = relabel m (t.push id) := rfl

theorem constant_relabel (kind : TypeKind) (literal : Literal) :
    (relabel m t).constant kind literal = relabel m (t.constant kind literal) := by
  have hsame : (relabel m t).constants = t.constants := rfl
  cases hc : t.constants.lookup (kind, literal.canonicalText) <;>
    simp only [constant, hsame, hc] <;> rfl

theorem literalScope_relabel (kind : TypeKind) :
    (relabel m t).literalScope kind = relabel m (t.literalScope kind) := by
  have hsame : (relabel m t).literals = t.literals := rfl
  cases hc : t.literals.lookup kind with
  | some id =>
    simp only [literalScope, hsame, hc]
    rfl
  | none =>
    simp only [literalScope, hsame, hc, create_relabel]
    rfl

end ScopeTable

end

namespace Node

mutual

def relocate (place : Location → Location) : Node → Node
  | .missing => .missing
  | .program loc sourceType body => .program (place loc) sourceType (relocateAll place body)
  | .identifier loc name => .identifier (place loc) name
  | .literal loc source => .literal (place loc) source
  | .variableDeclaration loc kind declarations =>
    .variableDeclaration (place loc) kind (relocateAll place declarations)
  | .variableDeclarator loc id init =>
    .variableDeclarator (place loc) (relocate place id) (relocate place init)
  | .functionDeclaration loc id params body =>
    .functionDeclaration (place loc) (relocate place id) (relocateAll place params)
      (relocate place body)
  | .functionExpression loc id params body =>
    .functionExpression (place loc) (relocate place id) (relocateAll place params)
      (relocate place body)
  | .arrowFunction loc params body short =>
    .arrowFunction (place loc) (relocateAll place params) (relocate place body) short
  | .returnStatement loc argument => .returnStatement (place loc) (relocate place argument)
  | .expressionStatement loc inner => .expressionStatement (place loc) (relocate place inner)
  | .blockStatement loc body => .blockStatement (place loc) (relocateAll place body)
  | .emptyStatement loc => .emptyStatement (place loc)
  | .assignment loc operator left right =>
    .assignment (place loc) operator (relocate place left) (relocate place right)
  | .call loc callee args optional =>
    .call (place loc) (relocate place callee) (relocateAll place args) optional
  | .member loc obj prop computed optional =>
    .member (place loc) (relocate place obj) (relocate place prop) computed optional
  | .chain loc inner => .chain (place loc) (relocate place inner)
  | .object loc members => .object (place loc) (relocateAll place members)
  | .property loc key value kind computed method shorthand =>
    .property (place loc) (relocate place key) (relocate place value) kind computed method shorthand
  | .array loc items => .array (place loc) (relocateAll place items)
  | .spread loc argument => .spread (place loc) (relocate place argument)
  | .unary loc operator prefixed argument =>
    .unary (place loc) operator prefixed (relocate place argument)
  | .update loc operator prefixed argument =>
    .update (place loc) operator prefixed (relocate place argument)
  | .binary loc operator left right =>
    .binary (place loc) operator (relocate place left) (relocate place right)
  | .logical loc operator left right =>
    .logical (place loc) operator (relocate place left) (relocate place right)
  | .conditional loc test yes no =>
    .conditional (place loc) (relocate place test) (relocate place yes) (relocate place no)
  | .assignmentPattern loc left right =>
    .assignmentPattern (place loc) (relocate place left) (relocate place right)
  | .restElement loc argument => .restElement (place loc) (relocate place argument)
  | .unknown loc type => .unknown (place loc) type

def relocateAll (place : Location → Location) : List Node → List Node
  | [] => []
  | node :: rest => relocate place node :: relocateAll place rest

end

variable {place : Location → Location} (node : Node)

theorem relocateAll_eq (nodes : List Node) :
    relocateAll place nodes = nodes.map (relocate place) := by
  induction nodes with
  | nil => rfl
  | cons node rest ih => exact congrArg (_ :: ·) ih

@[simp] theorem isMissing_relocate : (node.relocate place).isMissing = node.isMissing := by
  cases node <;> rfl

@[simp] theorem isPlaceholder_relocate :
    (node.relocate place).isPlaceholder = node.isPlaceholder := by
  cases node <;> rfl

@[simp] theorem typeName_relocate : (node.relocate place).typeName = node.typeName := by
  cases node <;> rfl

@[simp] theorem staticName?_relocate (computed : Bool) :
    (node.relocate place).staticName? computed = node.staticName? computed := by
  cases node <;> rfl

mutual

theorem relocate_id (node : Node) : node.relocate id = node := by
  cases node <;> rw [relocate] <;> simp only [relocate_id, relocateAll_id, id]

theorem relocateAll_id (nodes : List Node) : relocateAll id nodes = nodes := by
  cases nodes with
  | nil => rfl
  | cons node rest => exact congrArg₂ List.cons (relocate_id node) (relocateAll_id rest)

end

theorem location_relocate (h : place {} = {}) :
    (node.relocate place).location = place node.location := by
  cases node with
  | missing => exact h.symm
  | _ => rfl

end Node

end ScopeIR
