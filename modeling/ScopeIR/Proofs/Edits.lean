import ScopeIR.Proofs.Agreement
import ScopeIR.Proofs.Programs

/-! Edits that the lowering does not see. Statements and object members that it passes over
take no id and open no block, so that they can be put anywhere; and keys that fix a name count
as that name. Annotations may change along with an edit. -/
namespace ScopeIR

/-- The second list is the first one with related items and others in between. -/
inductive Padded {α : Type} (R : α → α → Prop) (extra : α → Prop) : List α → List α → Prop
  | nil : Padded R extra [] []
  | keep {a b : α} {as bs : List α} :
      R a b → Padded R extra as bs → Padded R extra (a :: as) (b :: bs)
  | insert {b : α} {as bs : List α} :
      extra b → Padded R extra as bs → Padded R extra as (b :: bs)

/-- What may be done to a tree: nodes that may be put between statements and between the
members of an object, and keys that may be exchanged, with whether they are computed. -/
structure Edit where
  statement : Node → Prop
  member : Node → Prop
  key : Node → Bool → Node → Bool → Prop

inductive Edit.Keys (e : Edit) (R : Node → Node → Prop) : Node × Bool → Node × Bool → Prop
  | keep {key key' : Node} {computed : Bool} :
      R key key' → Keys e R (key, computed) (key', computed)
  | exchange {key key' : Node} {computed computed' : Bool} :
      e.key key computed key' computed' → Keys e R (key, computed) (key', computed')

inductive Node.Edited (e : Edit) : Node → Node → Prop
  | missing : Edited e .missing .missing
  | program {loc : Location} {sourceType : String} {body body' : List Node} :
      Padded (Edited e) e.statement body body' →
      Edited e (.program loc sourceType body) (.program loc sourceType body')
  | identifier {loc : Location} {name : String} :
      Edited e (.identifier loc name) (.identifier loc name)
  | literal {loc : Location} {source : LiteralSource} :
      Edited e (.literal loc source) (.literal loc source)
  | variableDeclaration {loc : Location} {kind : String} {nodes nodes' : List Node} :
      List.Forall₂ (Edited e) nodes nodes' →
      Edited e (.variableDeclaration loc kind nodes) (.variableDeclaration loc kind nodes')
  | variableDeclarator {loc : Location} {id id' init init' : Node} :
      Edited e id id' → Edited e init init' →
      Edited e (.variableDeclarator loc id init) (.variableDeclarator loc id' init')
  | functionDeclaration {loc : Location} {id id' : Node} {params params' : List Node}
      {body body' : Node} :
      Edited e id id' → List.Forall₂ (Edited e) params params' → Edited e body body' →
      Edited e (.functionDeclaration loc id params body)
        (.functionDeclaration loc id' params' body')
  | functionExpression {loc : Location} {id id' : Node} {params params' : List Node}
      {body body' : Node} :
      Edited e id id' → List.Forall₂ (Edited e) params params' → Edited e body body' →
      Edited e (.functionExpression loc id params body)
        (.functionExpression loc id' params' body')
  | arrowFunction {loc : Location} {params params' : List Node} {body body' : Node}
      {short : Bool} : List.Forall₂ (Edited e) params params' → Edited e body body' →
      Edited e (.arrowFunction loc params body short) (.arrowFunction loc params' body' short)
  | returnStatement {loc : Location} {argument argument' : Node} :
      Edited e argument argument' →
      Edited e (.returnStatement loc argument) (.returnStatement loc argument')
  | expressionStatement {loc : Location} {inner inner' : Node} :
      Edited e inner inner' →
      Edited e (.expressionStatement loc inner) (.expressionStatement loc inner')
  | blockStatement {loc : Location} {body body' : List Node} :
      Padded (Edited e) e.statement body body' →
      Edited e (.blockStatement loc body) (.blockStatement loc body')
  | emptyStatement {loc : Location} : Edited e (.emptyStatement loc) (.emptyStatement loc)
  | assignment {loc : Location} {operator : String} {left left' right right' : Node} :
      Edited e left left' → Edited e right right' →
      Edited e (.assignment loc operator left right) (.assignment loc operator left' right')
  | call {loc : Location} {callee callee' : Node} {args args' : List Node} {optional : Bool} :
      Edited e callee callee' → List.Forall₂ (Edited e) args args' →
      Edited e (.call loc callee args optional) (.call loc callee' args' optional)
  | member {loc : Location} {obj obj' prop prop' : Node} {computed computed' optional : Bool} :
      Edited e obj obj' → e.Keys (Edited e) (prop, computed) (prop', computed') →
      Edited e (.member loc obj prop computed optional) (.member loc obj' prop' computed' optional)
  | chain {loc : Location} {inner inner' : Node} :
      Edited e inner inner' → Edited e (.chain loc inner) (.chain loc inner')
  | object {loc : Location} {members members' : List Node} :
      Padded (Edited e) e.member members members' →
      Edited e (.object loc members) (.object loc members')
  | property {loc : Location} {key key' value value' : Node} {kind : String}
      {computed computed' method shorthand : Bool} :
      e.Keys (Edited e) (key, computed) (key', computed') → Edited e value value' →
      Edited e (.property loc key value kind computed method shorthand)
        (.property loc key' value' kind computed' method shorthand)
  | array {loc : Location} {items items' : List Node} :
      List.Forall₂ (Edited e) items items' → Edited e (.array loc items) (.array loc items')
  | spread {loc : Location} {argument argument' : Node} :
      Edited e argument argument' → Edited e (.spread loc argument) (.spread loc argument')
  | unary {loc : Location} {operator : String} {prefixed : Bool} {argument argument' : Node} :
      Edited e argument argument' →
      Edited e (.unary loc operator prefixed argument) (.unary loc operator prefixed argument')
  | update {loc : Location} {operator : String} {prefixed : Bool} {argument argument' : Node} :
      Edited e argument argument' →
      Edited e (.update loc operator prefixed argument) (.update loc operator prefixed argument')
  | binary {loc : Location} {operator : String} {left left' right right' : Node} :
      Edited e left left' → Edited e right right' →
      Edited e (.binary loc operator left right) (.binary loc operator left' right')
  | logical {loc : Location} {operator : String} {left left' right right' : Node} :
      Edited e left left' → Edited e right right' →
      Edited e (.logical loc operator left right) (.logical loc operator left' right')
  | conditional {loc : Location} {test test' yes yes' no no' : Node} :
      Edited e test test' → Edited e yes yes' → Edited e no no' →
      Edited e (.conditional loc test yes no) (.conditional loc test' yes' no')
  | assignmentPattern {loc : Location} {left left' right right' : Node} :
      Edited e left left' → Edited e right right' →
      Edited e (.assignmentPattern loc left right) (.assignmentPattern loc left' right')
  | restElement {loc : Location} {argument argument' : Node} :
      Edited e argument argument' →
      Edited e (.restElement loc argument) (.restElement loc argument')
  | unknown {loc : Location} {type : String} : Edited e (.unknown loc type) (.unknown loc type)

theorem Padded.of_forall₂ {α : Type} {R : α → α → Prop} {extra : α → Prop} {as bs : List α}
    (h : List.Forall₂ R as bs) : Padded R extra as bs := by
  induction h with
  | nil => exact .nil
  | cons h _ ih => exact .keep h ih

mutual

theorem Node.Edited.refl (e : Edit) (node : Node) : node.Edited e node := by
  cases node with
  | missing => exact .missing
  | program _ _ body => exact .program (.of_forall₂ (Node.Edited.refl_all e body))
  | identifier => exact .identifier
  | literal => exact .literal
  | variableDeclaration _ _ nodes => exact .variableDeclaration (Node.Edited.refl_all e nodes)
  | variableDeclarator _ id init => exact .variableDeclarator (.refl e id) (.refl e init)
  | functionDeclaration _ id params body =>
    exact .functionDeclaration (.refl e id) (Node.Edited.refl_all e params) (.refl e body)
  | functionExpression _ id params body =>
    exact .functionExpression (.refl e id) (Node.Edited.refl_all e params) (.refl e body)
  | arrowFunction _ params body _ =>
    exact .arrowFunction (Node.Edited.refl_all e params) (.refl e body)
  | returnStatement _ argument => exact .returnStatement (.refl e argument)
  | expressionStatement _ inner => exact .expressionStatement (.refl e inner)
  | blockStatement _ body => exact .blockStatement (.of_forall₂ (Node.Edited.refl_all e body))
  | emptyStatement => exact .emptyStatement
  | assignment _ _ left right => exact .assignment (.refl e left) (.refl e right)
  | call _ callee args _ => exact .call (.refl e callee) (Node.Edited.refl_all e args)
  | member _ obj prop _ _ => exact .member (.refl e obj) (.keep (.refl e prop))
  | chain _ inner => exact .chain (.refl e inner)
  | object _ members => exact .object (.of_forall₂ (Node.Edited.refl_all e members))
  | property _ key value _ _ _ _ => exact .property (.keep (.refl e key)) (.refl e value)
  | array _ items => exact .array (Node.Edited.refl_all e items)
  | spread _ argument => exact .spread (.refl e argument)
  | unary _ _ _ argument => exact .unary (.refl e argument)
  | update _ _ _ argument => exact .update (.refl e argument)
  | binary _ _ left right => exact .binary (.refl e left) (.refl e right)
  | logical _ _ left right => exact .logical (.refl e left) (.refl e right)
  | conditional _ test yes no => exact .conditional (.refl e test) (.refl e yes) (.refl e no)
  | assignmentPattern _ left right => exact .assignmentPattern (.refl e left) (.refl e right)
  | restElement _ argument => exact .restElement (.refl e argument)
  | unknown => exact .unknown

theorem Node.Edited.refl_all (e : Edit) (nodes : List Node) :
    List.Forall₂ (Node.Edited e) nodes nodes := by
  cases nodes with
  | nil => exact .nil
  | cons node rest => exact .cons (.refl e node) (Node.Edited.refl_all e rest)

end

def Node.isIdle : Node → Bool
  | .variableDeclaration .. | .functionDeclaration .. | .returnStatement ..
  | .expressionStatement .. | .blockStatement .. | .missing => false
  | _ => true

def Node.isUnsupported : Node → Bool
  | .program .. | .variableDeclaration .. | .variableDeclarator .. | .functionDeclaration ..
  | .returnStatement .. | .expressionStatement .. | .blockStatement .. | .emptyStatement ..
  | .property .. | .spread .. | .assignmentPattern .. | .restElement .. | .unknown .. => true
  | _ => false

def Node.isProperty : Node → Bool
  | .property .. => true
  | _ => false

/-- Only what is passed over is put in, and only keys that fix the same name are exchanged. -/
structure Edit.Silent (e : Edit) : Prop where
  statement : ∀ node, e.statement node → node.isIdle
  member : ∀ node, e.member node → node.isProperty = false
  key : ∀ key computed key' computed', e.key key computed key' computed' →
    ∃ name, key.staticName? computed = some name ∧ key'.staticName? computed' = some name

variable {e : Edit} {node node' : Node}

namespace Node.Edited

theorem isMissing_eq (h : node.Edited e node') : node'.isMissing = node.isMissing := by
  cases h <;> rfl

theorem isPlaceholder_eq (h : node.Edited e node') : node'.isPlaceholder = node.isPlaceholder := by
  cases h <;> rfl

theorem typeName_eq (h : node.Edited e node') : node'.typeName = node.typeName := by
  cases h <;> rfl

theorem location_eq (h : node.Edited e node') : node'.location = node.location := by
  cases h <;> rfl

theorem parameterName_eq (h : node.Edited e node') : node'.parameterName = node.parameterName := by
  cases h <;> rfl

theorem staticName?_eq (h : node.Edited e node') (computed : Bool) :
    node'.staticName? computed = node.staticName? computed := by
  cases h <;> rfl

end Node.Edited

namespace Edit.Keys

variable {key key' : Node} {computed computed' : Bool}

theorem staticName?_eq (he : e.Silent)
    (h : e.Keys (Node.Edited e) (key, computed) (key', computed')) :
    key'.staticName? computed' = key.staticName? computed := by
  cases h with
  | keep h => exact h.staticName?_eq computed
  | exchange h =>
    obtain ⟨name, hname, hname'⟩ := he.key _ _ _ _ h
    rw [hname, hname']

theorem isMissing_eq (he : e.Silent)
    (h : e.Keys (Node.Edited e) (key, computed) (key', computed')) :
    key'.isMissing = key.isMissing := by
  have hstatic : ∀ {node : Node} {computed name}, node.staticName? computed = some name →
      node.isMissing = false := by
    rintro (_ | _) _ _ hname
    · cases hname
    all_goals rfl
  cases h with
  | keep h => exact h.isMissing_eq
  | exchange h =>
    obtain ⟨name, hname, hname'⟩ := he.key _ _ _ _ h
    rw [hstatic hname, hstatic hname']

theorem edited (he : e.Silent) (h : e.Keys (Node.Edited e) (key, computed) (key', computed'))
    (hk : key.staticName? computed = none) : key.Edited e key' := by
  cases h with
  | keep h => exact h
  | exchange h =>
    obtain ⟨name, hname, -⟩ := he.key _ _ _ _ h
    rw [hk] at hname
    cases hname

end Edit.Keys

namespace Node

variable {place : Location → Location} (node : Node)

theorem parameterName_relocate : (node.relocate place).parameterName = node.parameterName := by
  cases node <;> rfl

theorem isIdle_relocate : (node.relocate place).isIdle = node.isIdle := by
  cases node <;> rfl

theorem isProperty_relocate : (node.relocate place).isProperty = node.isProperty := by
  cases node <;> rfl

end Node

/-! The edited tree is lowered with other annotations at the same time. -/

namespace Lower

open Node (relocateAll)

variable {m : Relabelling}

theorem agree_assignTarget (h : node.Edited e node') (value ref : Value) :
    Agree m (assignTarget node value ref)
      (assignTarget (node'.relocate m.place) (relabel m value) (relabel m ref)) := by
  cases h with
  | identifier => exact agree_assignIdentifier _ _ _ _
  | missing => exact .failing _ _
  | _ => exact (agree_passOver _ _ _ _ _ _).andThen fun _ => .pure rfl

theorem agree_modifyTarget (h : node.Edited e node') {read read' : Lower Lowered} (ref : Value)
    {combine combine' : Value → Lower Lowered} (hread : Agree m read read')
    (hc : ∀ old, Agree m (combine old) (combine' (relabel m old))) :
    Agree m (modifyTarget node read ref combine)
      (modifyTarget (node'.relocate m.place) read' (relabel m ref) combine') :=
  hread.andThen fun old => (hc old.value).andThen fun new => (agree_enter _ _).andThen fun _ =>
    (agree_assignTarget h new.value ref).andThen fun _ => .pure (by simp)

theorem agree_declareTarget (h : node.Edited e node') (value ref : Value) :
    Agree m (declareTarget node value ref)
      (declareTarget (node'.relocate m.place) (relabel m value) (relabel m ref)) := by
  cases h with
  | identifier => exact agree_declareField _ _ _ _
  | _ => exact (agree_passOver _ _ _ _ _ _).andThen fun _ => .pure rfl

theorem agree_placeOf (he : e.Silent) (loc : Location) {object object' key key' : Node}
    {computed computed' : Bool} (ho : object.Edited e object')
    (hk : e.Keys (Node.Edited e) (key, computed) (key', computed'))
    {lowerObject lowerObject' lowerKey lowerKey' : Lower Lowered}
    (hobject : Agree m lowerObject lowerObject')
    (hkey : key.Edited e key' → Agree m lowerKey lowerKey') :
    Agree m (placeOf loc object key computed lowerObject lowerKey)
      (placeOf (m.place loc) (object'.relocate m.place) (key'.relocate m.place) computed'
        lowerObject' lowerKey') := by
  have hmissing : (object.isMissing || key.isMissing) = true ↔
      ((object'.relocate m.place).isMissing || (key'.relocate m.place).isMissing) = true := by
    rw [Node.isMissing_relocate, Node.isMissing_relocate, ho.isMissing_eq, hk.isMissing_eq he]
  refine Couples.guarded hmissing (fun _ => rfl) ?_
  refine (hobject.within _).andThen fun base => ?_
  rw [Node.staticName?_relocate, hk.staticName?_eq he]
  cases hname : key.staticName? computed with
  | some name => exact .pure rfl
  | none => exact ((hkey (hk.edited he hname)).within _).andThen fun _ => .pure (by simp)

theorem agree_knownArgument_edited (h : node.Edited e node') (ref : Value) :
    Agree m (knownArgument node ref)
      (knownArgument (node'.relocate m.place) (relabel m ref)) := by
  cases h with
  | identifier => exact agree_knownArgument _ _
  | _ => exact .pure rfl

theorem agree_parameters_edited {params params' : List Node}
    (h : List.Forall₂ (Node.Edited e) params params') :
    Agree m (parameters params) (parameters (relocateAll m.place params')) := by
  refine agree_parameters ?_
  rw [Node.relocateAll_eq, List.forall₂_map_right_iff]
  refine h.imp fun p q hpq => ⟨?_, ?_⟩
  · rw [Node.parameterName_relocate, hpq.parameterName_eq]
  · rw [Node.location_relocate _ m.nowhere, hpq.location_eq]

theorem exists_log_of_idle (h : node.isIdle) (s : Compilation) :
    ∃ log, statement node s = .ok () { s with log } := by
  rw [statement.eq_def]
  cases node with
  | variableDeclaration | functionDeclaration | returnStatement | expressionStatement
  | blockStatement | missing => cases h
  | _ => exact ⟨_, rfl⟩

theorem agree_skip_idle {x : Lower Unit} {rest : List Node} (h : node.isIdle)
    (hx : Agree m x (statements rest)) : Agree m x (statements (node :: rest)) := by
  rintro s _ ⟨log, rfl⟩
  obtain ⟨log', hlog⟩ := exists_log_of_idle h { relabel m s with log }
  rw [statements, bind_of_ok hlog]
  exact hx ⟨log', rfl⟩

theorem agree_idle (h : node.isIdle) (h' : node'.isIdle) :
    Agree m (statement node) (statement node') := by
  rintro s _ ⟨log, rfl⟩
  obtain ⟨log₁, hlog₁⟩ := exists_log_of_idle h s
  obtain ⟨log₂, hlog₂⟩ := exists_log_of_idle h' { relabel m s with log }
  rw [hlog₁, hlog₂]
  exact .ok rfl ⟨log₂, rfl⟩

section Expressions

variable {loc : Location} {operator : String} {ref : Value} {left left' right right' : Node}
  {args args' params params' : List Node} {body body' : Node} {flag : Bool}

theorem expression_of_unsupported (h : node.isUnsupported) :
    expression node ref = enter (.expression node.typeName ref) >>= fun _ =>
      passOver .expression node.typeName node.location >>= fun _ => pure { value := .null } := by
  rw [expression.eq_def]
  cases node with
  | program | variableDeclaration | variableDeclarator | functionDeclaration | returnStatement
  | expressionStatement | blockStatement | emptyStatement | property | spread | assignmentPattern
  | restElement | unknown => rfl
  | _ => cases h

theorem agree_unsupported (h : node.isUnsupported) (h' : node'.isUnsupported) :
    Agree m (expression node ref) (expression node' (relabel m ref)) := by
  rw [expression_of_unsupported h, expression_of_unsupported h']
  exact (agree_enter _ _).andThen fun _ => (agree_passOver _ _ _ _ _ _).andThen fun _ => .pure rfl

theorem agree_assignment (hleft : left.Edited e left') (hright : right.Edited e right')
    (hplace : Agree m (memberPlace left ref)
      (memberPlace (left'.relocate m.place) (relabel m ref)))
    (hl : Agree m (expression left ref) (expression (left'.relocate m.place) (relabel m ref)))
    (hr : Agree m (expression right ref) (expression (right'.relocate m.place) (relabel m ref))) :
    Agree m (expression (.assignment loc operator left right) ref)
      (expression (.assignment (m.place loc) operator (left'.relocate m.place)
        (right'.relocate m.place)) (relabel m ref)) := by
  have hmissing : (left.isMissing || right.isMissing) = true ↔
      ((left'.relocate m.place).isMissing || (right'.relocate m.place).isMissing) = true := by
    rw [Node.isMissing_relocate, Node.isMissing_relocate, hleft.isMissing_eq, hright.isMissing_eq]
  rw [expression, expression]
  refine (agree_enter _ _).andThen fun _ => ?_
  refine Couples.guarded hmissing (fun _ => rfl) ?_
  refine (hr.within _).andThen fun r => ?_
  dsimp only
  split
  · refine (agree_enter _ _).andThen fun _ => hplace.andThen fun place => ?_
    cases place with
    | none => exact (agree_assignTarget hleft r.value _).andThen fun _ => .pure (by simp)
    | some place => exact (agree_store place r.value).andThen fun _ => .pure (by simp)
  · refine Couples.andThen (.within _ ((agree_enter _ _).andThen fun _ =>
      hplace.andThen fun place => ?_)) fun _ => .pure (by simp)
    have hstep := agree_compoundStep (m := m) loc (compoundPart operator) r.value
    cases place with
    | none => exact agree_modifyTarget hleft ref hl hstep
    | some place => exact agree_modifyPlace place hstep

theorem agree_call (hcallee : left.Edited e left')
    (hargs : Agree m (arguments 0 args ref)
      (arguments 0 (relocateAll m.place args') (relabel m ref)))
    (hl : Agree m (expression left ref) (expression (left'.relocate m.place) (relabel m ref))) :
    Agree m (expression (.call loc left args flag) ref)
      (expression (.call (m.place loc) (left'.relocate m.place) (relocateAll m.place args') flag)
        (relabel m ref)) := by
  rw [expression, expression]
  refine (agree_enter _ _).andThen fun _ => ?_
  refine Couples.guarded (by rw [Node.isMissing_relocate, hcallee.isMissing_eq]) (fun _ => rfl) ?_
  exact hargs.andThen fun _ => (hl.within _).andThen fun _ => (agree_enter _ _).andThen fun _ =>
    (agree_callOf _ _ _).andThen fun _ => .pure (by simp)

theorem agree_object {members members' : List Node}
    (h : ∀ id, Agree m (Lower.members members (.ofScope id))
      (Lower.members (relocateAll m.place members') (.ofScope id))) :
    Agree m (expression (.object loc members) ref)
      (expression (.object (m.place loc) (relocateAll m.place members')) (relabel m ref)) := by
  rw [expression, expression]
  exact (agree_enter _ _).andThen fun _ => (agree_createScope _).andThen fun id =>
    (agree_pushScope _ _).andThen fun _ => (h id).andThen fun _ =>
    agree_popScope.andThen fun _ => .pure (by simp)

theorem agree_array {items items' : List Node}
    (h : ∀ id, Agree m (elements 0 items (.ofScope id) ref)
      (elements 0 (relocateAll m.place items') (.ofScope id) (relabel m ref))) :
    Agree m (expression (.array loc items) ref)
      (expression (.array (m.place loc) (relocateAll m.place items')) (relabel m ref)) := by
  rw [expression, expression]
  exact (agree_enter _ _).andThen fun _ => (agree_createScope _).andThen fun id =>
    (h id).andThen fun _ => .pure (by simp)

theorem agree_update (hargument : left.Edited e left')
    (hplace : Agree m (memberPlace left ref)
      (memberPlace (left'.relocate m.place) (relabel m ref)))
    (hl : Agree m (expression left ref) (expression (left'.relocate m.place) (relabel m ref))) :
    Agree m (expression (.update loc operator flag left) ref)
      (expression (.update (m.place loc) operator flag (left'.relocate m.place))
        (relabel m ref)) := by
  rw [expression, expression]
  refine (agree_enter _ _).andThen fun _ => ?_
  refine Couples.guarded (by rw [Node.isMissing_relocate, hargument.isMissing_eq])
    (fun _ => rfl) ?_
  refine Couples.andThen (.within _ ((agree_enter _ _).andThen fun _ =>
    hplace.andThen fun place => ?_)) fun modified => .pure ?_
  · have hstep := agree_updateStep (m := m) loc operator
    cases place with
    | none => exact agree_modifyTarget hargument ref hl hstep
    | some place => exact agree_modifyPlace place hstep
  · cases flag <;> rfl

def AgreeOnBlock (m : Relabelling) (body body' : Node) : Prop :=
  ∀ ⦃loc nodes nodes'⦄, body = .blockStatement loc nodes → body' = .blockStatement loc nodes' →
    Agree m (statements nodes) (statements (relocateAll m.place nodes'))

theorem agree_functionExpression {id id' : Node}
    (hparams : Agree m (parameters params) (parameters (relocateAll m.place params')))
    (hbody : body.Edited e body') (hblock : AgreeOnBlock m body body') :
    Agree m (expression (.functionExpression loc id params body) ref)
      (expression (.functionExpression (m.place loc) (id'.relocate m.place)
        (relocateAll m.place params') (body'.relocate m.place)) (relabel m ref)) := by
  rw [expression.eq_def, expression.eq_def (.functionExpression (m.place loc) _ _ _)]
  refine (agree_enter _ _).andThen fun _ => ?_
  cases hbody with
  | blockStatement => exact agree_functionObject _ _ _ hparams (hblock rfl rfl)
  | _ => exact .failing _ _

theorem agree_arrowBody (loc : Location) (hb : ∀ id, Agree m (expression body (.ofScope id))
      (expression body' (.ofScope id))) :
    Agree m (do
        enter (.statement "ReturnStatement")
        returnValue loc (expression body (.ofScope (← currentScope))))
      (do
        enter (.statement "ReturnStatement")
        returnValue (m.place loc) (expression body' (.ofScope (← currentScope)))) :=
  (agree_enter _ _).andThen fun _ =>
    agree_currentScope.andThen fun scope => agree_returnValue loc (hb scope)

theorem agree_arrowFunction
    (hparams : Agree m (parameters params) (parameters (relocateAll m.place params')))
    (hbody : body.Edited e body') (hblock : AgreeOnBlock m body body')
    (hb : ∀ id, Agree m (expression body (.ofScope id))
      (expression (body'.relocate m.place) (.ofScope id))) :
    Agree m (expression (.arrowFunction loc params body flag) ref)
      (expression (.arrowFunction (m.place loc) (relocateAll m.place params')
        (body'.relocate m.place) flag) (relabel m ref)) := by
  rw [expression.eq_def, expression.eq_def (.arrowFunction (m.place loc) _ _ flag)]
  refine (agree_enter _ _).andThen fun _ => ?_
  cases hbody with
  | missing => exact .failing _ _
  | blockStatement => exact agree_functionObject _ _ _ hparams (hblock rfl rfl)
  | _ => exact agree_functionObject _ _ _ hparams (agree_arrowBody _ hb)

end Expressions

section Lists

variable {ref : Value} {rest rest' : List Node}

theorem agree_arguments_cons {i : Nat} (hnode : node.Edited e node')
    (hx : Agree m (expression node ref) (expression (node'.relocate m.place) (relabel m ref)))
    (hrest : Agree m (arguments (i + 1) rest ref)
      (arguments (i + 1) (relocateAll m.place rest') (relabel m ref))) :
    Agree m (arguments i (node :: rest) ref)
      (arguments i (node'.relocate m.place :: relocateAll m.place rest') (relabel m ref)) := by
  rw [arguments, arguments]
  refine (agree_enter _ _).andThen fun _ =>
    (agree_knownArgument_edited hnode ref).andThen fun known => ?_
  cases known with
  | some value => exact hrest.andThen fun _ => .pure (by simp)
  | none => exact (hx.within _).andThen fun _ => hrest.andThen fun _ => .pure (by simp)

theorem agree_elements_cons {i : Nat} {array : Value} (hnode : node.Edited e node')
    (hx : Agree m (expression node ref) (expression (node'.relocate m.place) (relabel m ref)))
    (hrest : Agree m (elements (i + 1) rest array ref)
      (elements (i + 1) (relocateAll m.place rest') (relabel m array) (relabel m ref))) :
    Agree m (elements i (node :: rest) array ref)
      (elements i (node'.relocate m.place :: relocateAll m.place rest') (relabel m array)
        (relabel m ref)) := by
  rw [elements.eq_def, elements.eq_def i (_ :: relocateAll m.place rest')]
  cases hnode with
  | missing => exact hrest
  | _ =>
    exact (hx.within _).andThen fun v => (agree_declareField _ v.value _ _).andThen fun _ =>
      hrest.andThen fun _ => .pure (by simp)

theorem members_of_not_property {object : Value} (h : node.isProperty = false) :
    members (node :: rest) object = passOver .objectMember node.typeName node.location >>=
      fun _ => members rest object := by
  rw [members.eq_def]
  cases node with
  | property => cases h
  | _ => rfl

theorem agree_members_other {object object' : Value} (h : node.isProperty = false)
    (h' : node'.isProperty = false)
    (hrest : Agree m (members rest object) (members rest' object')) :
    Agree m (members (node :: rest) object) (members (node' :: rest') object') := by
  rw [members_of_not_property h, members_of_not_property h']
  exact (agree_passOver _ _ _ _ _ _).andThen fun _ => hrest

theorem agree_members_skip {object object' : Value} (h : node.isProperty = false)
    (hrest : Agree m (members rest object) (members rest' object')) :
    Agree m (members rest object) (members (node :: rest') object') := by
  rintro s _ ⟨log, rfl⟩
  obtain ⟨log', hlog⟩ : ∃ log', passOver .objectMember node.typeName node.location
      { relabel m s with log } = .ok () { relabel m s with log := log' } := ⟨_, rfl⟩
  rw [members_of_not_property h, bind_of_ok hlog]
  exact hrest ⟨log', rfl⟩

theorem agree_members_property (he : e.Silent) {object : Value} {loc : Location}
    {key key' value value' : Node} {kind : String} {computed computed' method shorthand : Bool}
    (hkey : e.Keys (Node.Edited e) (key, computed) (key', computed'))
    (hvalue : value.Edited e value')
    (hk : key.Edited e key' → Agree m (expression key object)
      (expression (key'.relocate m.place) (relabel m object)))
    (hv : Agree m (expression value object)
      (expression (value'.relocate m.place) (relabel m object)))
    (hrest : Agree m (members rest object)
      (members (relocateAll m.place rest') (relabel m object))) :
    Agree m (members (.property loc key value kind computed method shorthand :: rest) object)
      (members (.property (m.place loc) (key'.relocate m.place) (value'.relocate m.place) kind
        computed' method shorthand :: relocateAll m.place rest') (relabel m object)) := by
  have hmissing : (key.isMissing || value.isMissing) = true ↔
      ((key'.relocate m.place).isMissing || (value'.relocate m.place).isMissing) = true := by
    rw [Node.isMissing_relocate, Node.isMissing_relocate, hkey.isMissing_eq he,
      hvalue.isMissing_eq]
  have hplaceholder : value.isPlaceholder = true ↔
      (value'.relocate m.place).isPlaceholder = true := by
    rw [Node.isPlaceholder_relocate, hvalue.isPlaceholder_eq]
  rw [members, members]
  refine Couples.guarded hmissing (fun _ => rfl) ?_
  -- This failure alone tells where it happened.
  refine Couples.guarded hplaceholder (fun hm => ?_) ?_
  · rw [hm, Node.typeName_relocate, hvalue.typeName_eq]
  dsimp only
  rw [Node.staticName?_relocate, hkey.staticName?_eq he]
  cases hname : key.staticName? computed with
  | some name =>
    exact (hv.within _).andThen fun v => (agree_declareField _ v.value _ _).andThen fun _ =>
      hrest.andThen fun _ => .pure (by simp)
  | none =>
    exact ((hk (hkey.edited he hname)).within _).andThen fun _ => (hv.within _).andThen fun _ =>
      agree_fresh.andThen fun _ => hrest.andThen fun _ => .pure (by simp)

theorem agree_declarators_declarator {loc : Location} {id id' init init' : Node}
    (hid : id.Edited e id') (hinit : init.Edited e init')
    (hi : Agree m (expression init ref) (expression (init'.relocate m.place) (relabel m ref)))
    (hrest : Agree m (declarators rest ref)
      (declarators (relocateAll m.place rest') (relabel m ref))) :
    Agree m (declarators (.variableDeclarator loc id init :: rest) ref)
      (declarators (.variableDeclarator (m.place loc) (id'.relocate m.place)
        (init'.relocate m.place) :: relocateAll m.place rest') (relabel m ref)) := by
  rw [declarators, declarators]
  refine Couples.guarded (by rw [Node.isMissing_relocate, hid.isMissing_eq]) (fun _ => rfl) ?_
  rw [Node.isMissing_relocate, hinit.isMissing_eq]
  dsimp only
  split
  · exact (agree_declareTarget hid .null ref).andThen fun _ => hrest.andThen fun _ =>
      .pure (by simp)
  · exact (hi.within _).andThen fun v => (agree_declareTarget hid v.value ref).andThen fun _ =>
      hrest.andThen fun _ => .pure (by simp)

end Lists

section Statements

variable {loc : Location}

theorem agree_variableDeclaration {kind : String} {nodes nodes' : List Node}
    (h : ∀ id, Agree m (declarators nodes (.ofScope id))
      (declarators (relocateAll m.place nodes') (.ofScope id))) :
    Agree m (statement (.variableDeclaration loc kind nodes))
      (statement (.variableDeclaration (m.place loc) kind (relocateAll m.place nodes'))) := by
  rw [statement, statement]
  exact (agree_enter _ _).andThen fun _ =>
    agree_currentScope.andThen fun id => (h id).andThen fun _ => agree_emit _ rfl

theorem agree_functionDeclaration {id id' body body' : Node} {params params' : List Node}
    (hid : id.Edited e id')
    (hparams : Agree m (parameters params) (parameters (relocateAll m.place params')))
    (hbody : body.Edited e body') (hblock : AgreeOnBlock m body body') :
    Agree m (statement (.functionDeclaration loc id params body))
      (statement (.functionDeclaration (m.place loc) (id'.relocate m.place)
        (relocateAll m.place params') (body'.relocate m.place))) := by
  rw [statement.eq_def, statement.eq_def (.functionDeclaration (m.place loc) _ _ _)]
  refine (agree_enter _ _).andThen fun _ => ?_
  cases hid with
  | identifier =>
    cases hbody with
    | blockStatement =>
      exact agree_currentScope.andThen fun _ => (agree_declare _ _).andThen fun _ =>
        agree_fresh.andThen fun id => agree_functionName.andThen fun _ =>
        (agree_nestedName _).andThen fun _ =>
        (agree_function _ _ _ _ [] hparams (hblock rfl rfl)).andThen fun link =>
        (agree_addClosure _ _).andThen fun _ => agree_fresh.andThen fun _ =>
        (agree_emit _ (by simp)).andThen fun _ => agree_assign _ _ (.func id (some link))
    | _ => exact .failing _ _
  | _ => exact .failing _ _

theorem agree_returnStatement {argument argument' : Node} (hargument : argument.Edited e argument')
    (h : ∀ id, Agree m (expression argument (.ofScope id))
      (expression (argument'.relocate m.place) (.ofScope id))) :
    Agree m (statement (.returnStatement loc argument))
      (statement (.returnStatement (m.place loc) (argument'.relocate m.place))) := by
  rw [statement.eq_def, statement.eq_def (.returnStatement (m.place loc) _)]
  refine (agree_enter _ _).andThen fun _ => ?_
  cases hargument with
  | missing => exact agree_emit _ rfl
  | _ => exact agree_currentScope.andThen fun id => agree_returnValue loc (h id)

theorem agree_expressionStatement {inner inner' : Node} (hinner : inner.Edited e inner')
    (h : ∀ id, Agree m (expression inner (.ofScope id))
      (expression (inner'.relocate m.place) (.ofScope id))) :
    Agree m (statement (.expressionStatement loc inner))
      (statement (.expressionStatement (m.place loc) (inner'.relocate m.place))) := by
  rw [statement.eq_def, statement.eq_def (.expressionStatement (m.place loc) _)]
  refine (agree_enter _ _).andThen fun _ => ?_
  cases hinner with
  | missing => exact .failing _ _
  | _ =>
    exact agree_currentScope.andThen fun id => (h id).andThen fun _ => agree_emit loc rfl

theorem agree_blockStatement {body body' : List Node}
    (h : Agree m (statements body) (statements (relocateAll m.place body'))) :
    Agree m (statement (.blockStatement loc body))
      (statement (.blockStatement (m.place loc) (relocateAll m.place body'))) := by
  rw [statement, statement]
  exact (agree_enter _ _).andThen fun _ =>
    agree_currentScope.andThen fun _ => (agree_ensureOpen loc).andThen fun _ =>
    (agree_enterBlock loc _).andThen fun _ => h.andThen fun _ => agree_leaveBlock loc

end Statements

/-! The induction goes along the edited tree, which has more nodes. -/

mutual

theorem agree_expression (he : e.Silent) (node' : Node) {node : Node} (h : node.Edited e node')
    (ref : Value) :
    Agree m (expression node ref) (expression (node'.relocate m.place) (relabel m ref)) := by
  cases h with
  | identifier =>
    rw [Node.relocate, expression, expression]
    exact (agree_enter _ _).andThen fun _ => agree_identifier _ _ _
  | literal =>
    rw [Node.relocate, expression, expression]
    exact (agree_enter _ _).andThen fun _ => agree_literal _ _
  | assignment hleft hright =>
    exact agree_assignment hleft hright (agree_memberPlace he _ hleft ref)
      (agree_expression he _ hleft ref) (agree_expression he _ hright ref)
  | call hcallee hargs =>
    exact agree_call hcallee (agree_arguments he 0 _ hargs ref) (agree_expression he _ hcallee ref)
  | member hobj hprop =>
    rw [Node.relocate, expression, expression]
    exact (agree_enter _ _).andThen fun _ => (agree_placeOf he _ hobj hprop
      (agree_expression he _ hobj ref) fun hkey => agree_expression he _ hkey ref).andThen
      fun place => (agree_load place).andThen fun _ => .pure (by simp)
  | chain hinner =>
    rw [Node.relocate, expression, expression]
    exact (agree_enter _ _).andThen fun _ => agree_expression he _ hinner ref
  | object hmembers => exact agree_object fun id => agree_members he _ hmembers (.ofScope id)
  | array hitems => exact agree_array fun id => agree_elements he 0 _ hitems (.ofScope id) ref
  | functionExpression _ hparams hbody =>
    exact agree_functionExpression (agree_parameters_edited hparams) hbody
      (agree_block he _ hbody)
  | arrowFunction hparams hbody =>
    exact agree_arrowFunction (agree_parameters_edited hparams) hbody (agree_block he _ hbody)
      fun id => agree_expression he _ hbody (.ofScope id)
  | unary hargument =>
    rw [Node.relocate, expression, expression]
    exact (agree_enter _ _).andThen fun _ =>
      agree_operation _ rfl (.cons (agree_expression he _ hargument ref) .nil)
  | binary hleft hright =>
    rw [Node.relocate, expression, expression]
    exact (agree_enter _ _).andThen fun _ => agree_operation _ rfl
      (.cons (agree_expression he _ hleft ref) (.cons (agree_expression he _ hright ref) .nil))
  | logical hleft hright =>
    rw [Node.relocate, expression, expression]
    exact (agree_enter _ _).andThen fun _ => agree_operation _ rfl
      (.cons (agree_expression he _ hleft ref) (.cons (agree_expression he _ hright ref) .nil))
  | conditional htest hyes hno =>
    rw [Node.relocate, expression, expression]
    exact (agree_enter _ _).andThen fun _ => agree_operation _ rfl
      (.cons (agree_expression he _ htest ref) (.cons (agree_expression he _ hyes ref)
        (.cons (agree_expression he _ hno ref) .nil)))
  | update hargument =>
    exact agree_update hargument (agree_memberPlace he _ hargument ref)
      (agree_expression he _ hargument ref)
  | missing =>
    rw [Node.relocate, expression, expression]
    exact (agree_enter _ _).andThen fun _ => .failing _ _
  | _ => exact agree_unsupported rfl rfl
termination_by structural node'

theorem agree_memberPlace (he : e.Silent) (node' : Node) {node : Node} (h : node.Edited e node')
    (ref : Value) :
    Agree m (memberPlace node ref) (memberPlace (node'.relocate m.place) (relabel m ref)) := by
  cases h with
  | member hobj hprop =>
    rw [Node.relocate, memberPlace, memberPlace]
    exact (agree_placeOf he _ hobj hprop (agree_expression he _ hobj ref) fun hkey =>
      agree_expression he _ hkey ref).map fun _ _ => congrArg some
  | _ =>
    simp only [Node.relocate, memberPlace]
    exact .pure rfl
termination_by structural node'

theorem agree_block (he : e.Silent) (node' : Node) {node : Node} (h : node.Edited e node') :
    AgreeOnBlock m node node' := by
  cases h with
  | blockStatement hnodes =>
    rintro _ _ _ ⟨⟩ ⟨⟩
    exact agree_statements he _ hnodes
  | _ => rintro _ _ _ ⟨⟩
termination_by structural node'

theorem agree_arguments (he : e.Silent) (i : Nat) (nodes' : List Node) {nodes : List Node}
    (h : List.Forall₂ (Node.Edited e) nodes nodes') (ref : Value) :
    Agree m (arguments i nodes ref)
      (arguments i (relocateAll m.place nodes') (relabel m ref)) := by
  cases h with
  | nil =>
    rw [relocateAll, arguments, arguments]
    exact .pure rfl
  | cons hnode hrest =>
    exact agree_arguments_cons hnode (agree_expression he _ hnode ref)
      (agree_arguments he (i + 1) _ hrest ref)
termination_by structural nodes'

theorem agree_members (he : e.Silent) (nodes' : List Node) {nodes : List Node}
    (h : Padded (Node.Edited e) e.member nodes nodes') (object : Value) :
    Agree m (members nodes object)
      (members (relocateAll m.place nodes') (relabel m object)) := by
  cases h with
  | nil =>
    rw [relocateAll, members, members]
    exact .pure rfl
  | insert hextra hrest =>
    exact agree_members_skip ((Node.isProperty_relocate _).trans (he.member _ hextra))
      (agree_members he _ hrest object)
  | keep hnode hrest =>
    have hmore := agree_members he _ hrest object
    cases hnode with
    | property hkey hvalue =>
      exact agree_members_property he hkey hvalue (fun hk => agree_expression he _ hk object)
        (agree_expression he _ hvalue object) hmore
    | _ => exact agree_members_other rfl rfl hmore
termination_by structural nodes'

theorem agree_elements (he : e.Silent) (i : Nat) (nodes' : List Node) {nodes : List Node}
    (h : List.Forall₂ (Node.Edited e) nodes nodes') (array ref : Value) :
    Agree m (elements i nodes array ref)
      (elements i (relocateAll m.place nodes') (relabel m array) (relabel m ref)) := by
  cases h with
  | nil =>
    rw [relocateAll, elements, elements]
    exact .pure rfl
  | cons hnode hrest =>
    exact agree_elements_cons hnode (agree_expression he _ hnode ref)
      (agree_elements he (i + 1) _ hrest array ref)
termination_by structural nodes'

theorem agree_statement (he : e.Silent) (node' : Node) {node : Node} (h : node.Edited e node') :
    Agree m (statement node) (statement (node'.relocate m.place)) := by
  cases h with
  | variableDeclaration hnodes =>
    exact agree_variableDeclaration fun id => agree_declarators he _ hnodes (.ofScope id)
  | functionDeclaration hid hparams hbody =>
    exact agree_functionDeclaration hid (agree_parameters_edited hparams) hbody
      (agree_block he _ hbody)
  | returnStatement hargument =>
    exact agree_returnStatement hargument fun id => agree_expression he _ hargument (.ofScope id)
  | expressionStatement hinner =>
    exact agree_expressionStatement hinner fun id => agree_expression he _ hinner (.ofScope id)
  | blockStatement hnodes => exact agree_blockStatement (agree_statements he _ hnodes)
  | missing =>
    rw [Node.relocate, statement]
    exact (agree_enter _ _).andThen fun _ => .failing _ _
  | _ => exact agree_idle rfl rfl
termination_by structural node'

theorem agree_statements (he : e.Silent) (nodes' : List Node) {nodes : List Node}
    (h : Padded (Node.Edited e) e.statement nodes nodes') :
    Agree m (statements nodes) (statements (relocateAll m.place nodes')) := by
  cases h with
  | nil => exact .pure rfl
  | insert hextra hrest =>
    exact agree_skip_idle ((Node.isIdle_relocate _).trans (he.statement _ hextra))
      (agree_statements he _ hrest)
  | keep hnode hrest =>
    rw [relocateAll, statements, statements]
    exact (agree_statement he _ hnode).andThen fun _ => agree_statements he _ hrest
termination_by structural nodes'

theorem agree_declarators (he : e.Silent) (nodes' : List Node) {nodes : List Node}
    (h : List.Forall₂ (Node.Edited e) nodes nodes') (ref : Value) :
    Agree m (declarators nodes ref)
      (declarators (relocateAll m.place nodes') (relabel m ref)) := by
  cases h with
  | nil =>
    rw [relocateAll, declarators, declarators]
    exact .pure rfl
  | cons hnode hrest =>
    have hmore := agree_declarators he _ hrest ref
    cases hnode with
    | variableDeclarator hid hinit =>
      exact agree_declarators_declarator hid hinit (agree_expression he _ hinit ref) hmore
    | _ =>
      rw [relocateAll, declarators.eq_def, declarators.eq_def (_ :: relocateAll _ _)]
      exact .failing _ _
termination_by structural nodes'

end

end Lower

/-- Silent edits and other annotations change the annotations of the functions alone, and a
failure keeps its reason. -/
theorem lower_relocate (m : Relabelling) (he : e.Silent) (h : node.Edited e node') (file : String)
    (hosts : List String) :
    (∃ functions, (lower file hosts node).1 = .ok functions ∧
      (lower (m.file file) hosts (node'.relocate m.place)).1 = .ok (relabel m functions)) ∨
    ∃ failure failure', (lower file hosts node).1 = .error failure ∧
      (lower (m.file file) hosts (node'.relocate m.place)).1 = .error failure' ∧
      failure.Alike m failure' := by
  have hprogram : Agree m (Lower.program hosts node)
      (Lower.program hosts (node'.relocate m.place)) := by
    cases h with
    | program hbody => exact Lower.agree_program _ _ _ (Lower.agree_statements he _ hbody)
    | _ => exact .failing _ _
  have hstart : Compilation.start (m.file file) = relabel m (Compilation.start file) :=
    congrArg (fun definition => ({ file := m.file file, frame := { definition } } : Compilation))
      (m.user mainName file).symm
  have hresult := hprogram (s := .start file) ⟨[], hstart⟩
  unfold lower
  cases hx : Lower.program hosts node (.start file) <;>
    cases hy : Lower.program hosts (node'.relocate m.place) (.start (m.file file)) <;>
    rw [hx, hy] at hresult <;> cases hresult
  · exact .inl ⟨_, rfl, congrArg Except.ok ‹_›⟩
  · exact .inr ⟨_, _, rfl, rfl, ‹_›⟩

/-- Silent edits leave the functions, or the failure, as they are. -/
theorem lower_edited (he : e.Silent) (h : node.Edited e node') (file : String)
    (hosts : List String) : (lower file hosts node').1 = (lower file hosts node).1 := by
  have hsame := lower_relocate .identity he h file hosts
  rw [show Relabelling.identity.place = id from rfl, Node.relocate_id] at hsame
  obtain ⟨functions, hx, hy⟩ | ⟨failure, failure', hx, hy, halike⟩ := hsame
  · rw [relabel_identity] at hy
    exact hy.trans hx.symm
  · rw [halike.2 fun _ => rfl] at hy
    exact hy.trans hx.symm

/-- What is passed over is put in anywhere: between statements those that are idle, between
the members of an object all that is not a property. -/
def padding : Edit where
  statement node := node.isIdle
  member node := node.isProperty = false
  key _ _ _ _ := False

theorem silent_padding : padding.Silent where
  statement _ h := h
  member _ h := h
  key _ _ _ _ h := False.elim h

/-- Nodes that are passed over have no effect: they can be put anywhere between statements and
between the members of objects. -/
theorem lower_padded (file : String) (hosts : List String) {node node' : Node}
    (h : node.Edited padding node') : (lower file hosts node').1 = (lower file hosts node).1 :=
  lower_edited silent_padding h file hosts

/-- `function f() { return { a: x }; }`, with more members around the property and more
statements after the return and around the function. -/
def returnsObject (first last inside before after : List Node) : Node :=
  let members := first ++
    .property {} (.identifier {} "a") (.identifier {} "x") "init" false false false :: last
  let body := .returnStatement {} (.object {} members) :: inside
  .program {} "script" (before ++
    .functionDeclaration {} (.identifier {} "f") [] (.blockStatement {} body) :: after)

theorem lower_padded_returnsObject : ∃ functions,
    (lower "f.js" [] (returnsObject [] [] [] [] [])).1 = .ok functions ∧
      functions.map (·.blocks.length) = [1, 2] ∧
      (lower "f.js" [] (returnsObject [.spread {} (.identifier {} "y")] [.missing]
        [.unknown {} "WhileStatement"] [.emptyStatement {}] [.identifier {} "x"])).1 =
        .ok functions := by
  obtain ⟨functions, h, hb⟩ := Outcome.exists_ok
    (x := (lower "f.js" [] (returnsObject [] [] [] [] [])).1)
    (f := List.map (·.blocks.length)) (b := [1, 2]) (by decide +kernel)
  refine ⟨functions, h, hb, (lower_padded "f.js" [] ?_).trans h⟩
  have hmembers : Padded (Node.Edited padding) padding.member
      [.property {} (.identifier {} "a") (.identifier {} "x") "init" false false false]
      [.spread {} (.identifier {} "y"),
        .property {} (.identifier {} "a") (.identifier {} "x") "init" false false false,
        .missing] :=
    .insert rfl (.keep (.refl _ _) (.insert rfl .nil))
  exact .program (.insert rfl (.keep (.functionDeclaration .identifier .nil (.blockStatement
    (.keep (.returnStatement (.object hmembers)) (.insert rfl .nil)))) (.insert rfl .nil)))

/-- A key with its flag, and a string that fixes the same name, computed or not: an identifier
that is not computed, or a truth value or null that is. -/
inductive Node.Quotes : Node → Bool → Node → Bool → Prop
  | name {loc loc' : Location} {name raw : String} {computed : Bool} :
      Quotes (.identifier loc name) false (.literal loc' { raw, value := .str name }) computed
  | bool {loc loc' : Location} {raw raw' : String} {value computed : Bool} :
      Quotes (.literal loc { raw, value := .bool value }) true
        (.literal loc' { raw := raw', value := .str (if value then "true" else "false") }) computed
  | null {loc loc' : Location} {raw raw' : String} {computed : Bool} :
      Quotes (.literal loc { raw, value := .null }) true
        (.literal loc' { raw := raw', value := .str "null" }) computed

/-- The keys of members and properties are put in quotes, at any number of places. -/
def quoting : Edit where
  statement _ := False
  member _ := False
  key := Node.Quotes

theorem silent_quoting : quoting.Silent where
  statement _ h := h.elim
  member _ h := h.elim
  key _ _ _ _ h := by
    cases h with
    | name => exact ⟨_, rfl, rfl⟩
    | @bool _ _ _ _ value => exact ⟨_, rfl, by cases value <;> rfl⟩
    | null => exact ⟨_, rfl, rfl⟩

/-- Literal keys are names, whether a member is read, written or modified or an object is made. -/
theorem lower_quoted (file : String) (hosts : List String) {node node' : Node}
    (h : node.Edited quoting node') : (lower file hosts node').1 = (lower file hosts node).1 :=
  lower_edited silent_quoting h file hosts

/-- `o.a; o.a = o[true]; o.a += x; ({ a: o[null] });`, for any three keys. -/
def usesKeys (name flag absent : Node × Bool) : Node :=
  let field (key : Node × Bool) : Node := .member {} (.identifier {} "o") key.1 key.2 false
  let object : Node :=
    .object {} [.property {} name.1 (field absent) "init" name.2 false false]
  .program {} "script" ([field name, .assignment {} "=" (field name) (field flag),
    .assignment {} "+=" (field name) (.identifier {} "x"), object].map (.expressionStatement {}))

theorem lower_quoted_usesKeys : ∃ functions,
    (lower "f.js" [] (usesKeys (.identifier {} "a", false)
      (.literal {} { value := .bool true }, true) (.literal {} { value := .null }, true))).1 =
        .ok functions ∧
      functions.map (·.blocks.map (·.instructions.length)) = [[6, 24]] ∧
      (lower "f.js" [] (usesKeys
        (.literal { start := ⟨7, 7⟩ } { raw := "'a'", value := .str "a" }, true)
        (.literal {} { value := .str "true" }, false)
        (.literal {} { raw := "null", value := .str "null" }, true))).1 = .ok functions := by
  obtain ⟨functions, h, hb⟩ := Outcome.exists_ok
    (x := (lower "f.js" [] (usesKeys (.identifier {} "a", false)
      (.literal {} { value := .bool true }, true) (.literal {} { value := .null }, true))).1)
    (f := List.map (·.blocks.map (·.instructions.length))) (b := [[6, 24]]) (by decide +kernel)
  refine ⟨functions, h, hb, (lower_quoted "f.js" [] ?_).trans h⟩
  have hfield {key key' : Node} {computed computed' : Bool}
      (hk : key.Quotes computed key' computed') :
      Node.Edited quoting (.member {} (.identifier {} "o") key computed false)
        (.member {} (.identifier {} "o") key' computed' false) :=
    .member .identifier (.exchange hk)
  exact .program (.keep (.expressionStatement (hfield .name))
    (.keep (.expressionStatement (.assignment (hfield .name) (hfield .bool)))
    (.keep (.expressionStatement (.assignment (hfield .name) .identifier))
    (.keep (.expressionStatement (.object
      (.keep (.property (.exchange .name) (hfield .null)) .nil))) .nil))))

end ScopeIR
