import ScopeIR.Proofs.Run
import ScopeIR.Proofs.Success
import ScopeIR.Stats

/-! Locations, numbers and letters to choose from. A tree offers those of its nodes, literals and
names, and lowering its names, constants and operators adds no others to the state, but for the
number one of an update and for letters that can be seen. The table of constants stays in order
meanwhile. -/
namespace ScopeIR

def isVisible (c : Char) : Bool := ' '.toNat ≤ c.toNat

/-- Locations, numbers and letters to choose from. -/
structure Stock where
  place : Location → Prop
  number : Binary64 → Prop
  letter : Char → Prop
  nowhere : place {}
  one : number .one
  visible : ∀ c, isVisible c → letter c

variable {k : Stock} {s : Compilation} {code : List Instruction} {loc : Location} {v : Value}

def Stock.Spells (k : Stock) (text : String) : Prop := ∀ c ∈ text.toList, k.letter c

namespace Stock

variable {text rest : String}

theorem spells_visible (h : text.toList.all isVisible) : k.Spells text :=
  fun c hc => k.visible c (List.all_eq_true.mp h c hc)

theorem Spells.append (h : k.Spells text) (hr : k.Spells rest) : k.Spells (text ++ rest) := by
  unfold Spells
  rw [String.toList_append]
  exact List.forall_mem_append.mpr ⟨h, hr⟩

theorem isVisible_of_isDigit {c : Char} (h : c.isDigit) : isVisible c := by
  simp only [Char.isDigit, Bool.and_eq_true, decide_eq_true_eq] at h
  have hblank : ' '.val ≤ '0'.val := by decide
  exact decide_eq_true (UInt32.le_trans hblank h.1)

theorem spells_toString_nat (n : Nat) : k.Spells (toString n) := by
  intro c hc
  refine k.visible c (isVisible_of_isDigit ?_)
  rw [Nat.toString_eq_repr, Nat.toList_repr] at hc
  exact Nat.isDigit_of_mem_toDigits (by decide) (by decide) hc

theorem spells_toString (id : Id) : k.Spells (toString id) := by
  cases id with
  | ofNat n => exact spells_toString_nat n
  | negSucc n => exact (spells_visible (by decide)).append (spells_toString_nat (n + 1))

open FunctionDefinition

theorem Spells.marked {mark : String} (h : k.Spells text) (hm : mark.toList.all isVisible) :
    k.Spells (primitive (mark ++ text)).shownName := (spells_visible hm).append h

theorem Spells.getField (h : k.Spells text) : k.Spells (getField text).shownName :=
  h.marked (by decide)

theorem Spells.setField (h : k.Spells text) : k.Spells (setField text).shownName :=
  h.marked (by decide)

theorem Spells.compound (h : k.Spells text) : k.Spells (compoundOperator text).shownName := by
  unfold compoundOperator
  split
  · exact h.marked (by decide)
  · exact h.marked (by decide)

theorem Spells.leading (h : k.Spells text) : k.Spells (leadingOperator text).shownName := by
  unfold leadingOperator
  split
  · rename_i c rest hc
    split
    · refine Spells.marked (fun d hd => ?_) (by decide)
      rw [String.toList_singleton, List.mem_singleton] at hd
      exact h d (by rw [hd, hc]; exact List.mem_cons_self)
    · have hshown : String.ofList
          (binaryOperator (String.singleton (leadingByte c))).name.toList.dropLast = "#binop# " := by
        rw [binaryOperator, primitive, String.toList_append, String.toList_singleton,
          List.dropLast_concat, String.ofList_toList]
      unfold shownName shown
      rw [if_pos rfl]
      exact hshown ▸ spells_visible (by decide)
  · exact spells_visible (by decide)

theorem Spells.compoundPart (h : k.Spells text) : k.Spells (Lower.compoundPart text) := by
  unfold Lower.compoundPart
  split
  · rename_i rest hr
    intro c hc
    rw [String.toList_ofList, List.mem_reverse] at hc
    exact h c (List.mem_reverse.mp (hr ▸ List.mem_cons_of_mem _ hc))
  · exact h

end Stock

/-- What a node itself says that can be part of a name: an identifier, an operator, or a key that
fixes a name. -/
def Node.words : Node → List String
  | .identifier _ name => [name]
  | .assignment _ operator _ _ | .unary _ operator _ _ | .update _ operator _ _
  | .binary _ operator _ _ | .logical _ operator _ _ => [operator]
  | .member _ _ key computed _ | .property _ key _ _ computed _ _ =>
    (key.staticName? computed).toList
  | _ => []

/-- Every node of the tree has a location of the stock and words that it spells, and every literal
a number of it. -/
inductive Node.Offers (k : Stock) : Node → Prop
  | intro {node : Node} (place : k.place node.location)
      (number : ∀ loc source x, node = .literal loc source → source.value = .num x → k.number x)
      (words : ∀ word ∈ node.words, k.Spells word)
      (children : ∀ child ∈ node.children, Offers k child.2) : Offers k node

namespace Node.Offers

theorem location {node : Node} (h : node.Offers k) : k.place node.location := by
  cases h with
  | intro place number words children => exact place

theorem literal {source : LiteralSource} (h : (Node.literal loc source).Offers k) {x : Binary64}
    (hx : source.value = .num x) : k.number x := by
  cases h with
  | intro place number words children => exact number loc source x rfl hx

theorem word {node : Node} (h : node.Offers k) {text : String} (hm : text ∈ node.words) :
    k.Spells text := by
  cases h with
  | intro place number words children => exact words text hm

theorem name {text : String} (h : (Node.identifier loc text).Offers k) : k.Spells text :=
  h.word (List.mem_singleton_self text)

theorem child {node other : Node} (h : node.Offers k) (slot : String)
    (hm : (slot, other) ∈ node.children) : other.Offers k := by
  cases h with
  | intro place number words children => exact children _ hm

theorem item {node : Node} (h : node.Offers k) (slot : String) {nodes : List Node}
    (hm : Node.children.items slot nodes ⊆ node.children) : ∀ other ∈ nodes, other.Offers k := by
  intro other ho
  obtain ⟨i, hi⟩ := List.mem_iff_getElem?.mp ho
  have hz : (other, i) ∈ nodes.zipIdx := List.mem_zipIdx_iff_getElem?.mpr hi
  exact h.child _ (hm (List.mem_map.mpr ⟨(other, i), hz, rfl⟩))

end Node.Offers

def Node.Holds (outer inner : Node) : Prop := ∃ slot, (slot, inner) ∈ outer.children

namespace Node

theorem sizeOf_lt_of_mem_items {node : Node} {name slot : String} {nodes : List Node}
    (h : (slot, node) ∈ children.items name nodes) : sizeOf node < sizeOf nodes := by
  obtain ⟨⟨item, i⟩, hm, heq⟩ := List.mem_map.mp h
  cases heq
  exact List.sizeOf_lt_of_mem (List.fst_mem_of_mem_zipIdx hm)

theorem Holds.sizeOf_lt {node node' : Node} (h : node.Holds node') :
    sizeOf node' < sizeOf node := by
  obtain ⟨slot, hm⟩ := h
  cases node <;> grind [children, → sizeOf_lt_of_mem_items]

end Node

def Stock.all : Stock where
  place _ := True
  number _ := True
  letter _ := True
  nowhere := trivial
  one := trivial
  visible _ _ := trivial

theorem Node.offers_all (node : Node) : node.Offers .all :=
  .intro trivial (fun _ _ _ _ _ => trivial) (fun _ _ _ _ => trivial) fun child _ =>
    offers_all child.2
termination_by sizeOf node
decreasing_by exact Node.Holds.sizeOf_lt ⟨child.1, by assumption⟩

def Value.shownNames : Value → List String
  | .func _ link => link.toList.map (·.definition.shownName)
  | .ref _ | .scope .. | .const _ => []

structure Value.From (k : Stock) (v : Value) : Prop where
  number : ∀ c x, v = .const c → c.literal = .num x → k.number x
  names : ∀ name ∈ v.shownNames, k.Spells name

structure Instruction.From (k : Stock) (x : Instruction) : Prop where
  place : k.place x.location
  values : ∀ v ∈ x.values, v.From k
  callee : ∀ callee ∈ Stats.callee? x, k.Spells callee.shownName

def CodeFrom (k : Stock) (code : List Instruction) : Prop := ∀ x ∈ code, x.From k

theorem Value.from_ref (id : Id) : (Value.ref id).From k := ⟨by simp, List.forall_mem_nil _⟩

theorem Value.from_ofScope (id : Id) : (Value.ofScope id).From k :=
  ⟨by simp [ofScope], List.forall_mem_nil _⟩

theorem Value.from_func (id : Id) {link : FunctionLink} (h : k.Spells link.definition.shownName) :
    (Value.func id (some link)).From k :=
  ⟨by simp, List.forall_mem_singleton.mpr h⟩

theorem Value.from_const {c : Constant} (h : ∀ x, c.literal = .num x → k.number x) :
    (Value.const c).From k := by
  refine ⟨fun d x hd hx => ?_, List.forall_mem_nil _⟩
  cases hd
  exact h x hx

theorem Value.from_null : Value.null.From k := from_const (by simp)

theorem Value.from_all (v : Value) : v.From .all := ⟨fun _ _ _ _ => trivial, fun _ _ _ _ => trivial⟩

theorem from_apply {id : Id} {callee : FunctionDefinition} {operands : List Value}
    (hl : k.place loc) (hc : k.Spells callee.shownName) (ho : ∀ v ∈ operands, v.From k) :
    (Instruction.apply loc id callee operands).From k := by
  refine ⟨hl, by rwa [Instruction.values_apply], fun shown hs => ?_⟩
  cases hs
  exact hc

theorem from_newObject {id : Id} (hl : k.place loc) :
    (Instruction.apply loc id .newObject []).From k :=
  from_apply hl (Stock.spells_visible (by decide)) (List.forall_mem_nil _)

theorem from_scope {id : Id} (hl : k.place loc) : (Instruction.scope loc id).From k :=
  ⟨hl, List.forall_mem_nil _, by simp [Stats.callee?]⟩

theorem from_branch {target : Option BlockLink} (hl : k.place loc) :
    (Instruction.branch loc target).From k :=
  ⟨hl, List.forall_mem_nil _, by simp [Stats.callee?]⟩

theorem from_ret (hl : k.place loc) (hv : v.From k) : (Instruction.ret loc (some v)).From k :=
  ⟨hl, List.forall_mem_singleton.mpr hv, by simp [Stats.callee?]⟩

theorem CodeFrom.nil : CodeFrom k [] := List.forall_mem_nil _

theorem CodeFrom.append {more : List Instruction} (h : CodeFrom k code) (hm : CodeFrom k more) :
    CodeFrom k (code ++ more) := List.forall_mem_append.mpr ⟨h, hm⟩

theorem CodeFrom.singleton {x : Instruction} (h : x.From k) : CodeFrom k [x] :=
  List.forall_mem_singleton.mpr h

theorem CodeFrom.cons {x : Instruction} (h : x.From k) (hc : CodeFrom k code) :
    CodeFrom k (x :: code) := List.forall_mem_cons.mpr ⟨h, hc⟩

structure Frame.From (k : Stock) (f : Frame) : Prop where
  name : k.Spells f.definition.name
  parameters : ∀ p ∈ f.parameters, k.Spells p.name
  blocks : ∀ block ∈ f.blocks, CodeFrom k block.instructions

def Function.From (k : Stock) (f : Function) : Prop := CodeFrom k f.code

def Function.Named (k : Stock) (f : Function) : Prop :=
  k.Spells f.definition.name ∧ ∀ p ∈ f.parameters, k.Spells p.name

/-- Constants are found by their kind and the text of their literal, and a kind has a scope
exactly if it has constants. -/
structure ScopeTable.Literate (t : ScopeTable) : Prop where
  kept : ∀ entry ∈ t.constants, entry.2.IsTyped ∧
    entry.1 = (entry.2.type.kind, entry.2.literal.canonicalText)
  shared : ∀ kind, (t.literals.lookup kind).isSome ↔ ∃ entry ∈ t.constants, entry.1.1 = kind

def Scope.From (k : Stock) (scope : Scope) : Prop := ∀ name assignment v,
  scope.assigned? name = some assignment → assignment.value = some v → v.From k

/-- The values that names were given count too, as calls may take them. -/
structure ScopeTable.From (k : Stock) (t : ScopeTable) : Prop where
  known : ∀ x v, t.Knows x v → v.From k
  constants : ∀ entry ∈ t.constants, (Value.const entry.2).From k
  literate : t.Literate

structure Compilation.From (k : Stock) (s : Compilation) : Prop where
  frame : s.frame.From k
  functions : ∀ f ∈ s.functions, f.From k ∧ f.Named k
  scopes : s.scopes.From k
  entries : ∀ entry ∈ s.entries, entry.scopes.Literate

theorem Compilation.From.withScopes (hs : s.From k) {t : ScopeTable} (ht : t.From k) :
    Compilation.From k { s with scopes := t } := ⟨hs.frame, hs.functions, ht, hs.entries⟩

theorem ScopeTable.From.scope {t : ScopeTable} (h : t.From k) {x : Id} {scope : Scope}
    (hs : t.scope? x = some scope) : scope.From k :=
  fun name assignment v ha hv => h.known x v ⟨scope, name, assignment, hs, ha, hv⟩

theorem ScopeTable.From.of_known {t t' : ScopeTable} (h : t.From k)
    (known : ∀ x v, t'.Knows x v → v.From k) (constants : t'.constants = t.constants)
    (literals : t'.literals = t.literals) : t'.From k where
  known := known
  constants := constants ▸ h.constants
  literate := ⟨constants ▸ h.literate.kept, constants ▸ literals ▸ h.literate.shared⟩

/-- The step leaves nothing that is not from the stock, and its result is as wanted. -/
def Keeps {α : Type} (k : Stock) (step : Lower α) (Q : α → Prop) : Prop :=
  ∀ ⦃s a s'⦄, s.From k → step s = .ok a s' → s'.From k ∧ Q a

namespace Keeps

variable {α β : Type} {P : α → Prop} {Q : β → Prop}

theorem bind {x : Lower α} {f : α → Lower β} (hx : Keeps k x P)
    (hf : ∀ a, P a → Keeps k (f a) Q) : Keeps k (x >>= f) Q := by
  intro s b s' hs h
  obtain ⟨a, s₁, ha, hb⟩ := Lower.bind_eq_ok.mp h
  obtain ⟨hs₁, hp⟩ := hx hs ha
  exact hf a hp hs₁ hb

theorem pure {a : α} (h : P a) : Keeps k (pure a) P := by
  intro s b s' hs hb
  obtain ⟨rfl, rfl⟩ := Lower.pure_eq_ok.mp hb
  exact ⟨hs, h⟩

theorem map {f : α → β} {x : Lower α} (hx : Keeps k x P) (hf : ∀ a, P a → Q (f a)) :
    Keeps k (f <$> x) Q := by
  intro s b s' hs h
  obtain ⟨a, ha, rfl⟩ := Lower.map_eq_ok.mp h
  exact ⟨(hx hs ha).1, hf a (hx hs ha).2⟩

theorem fail {context : List String} {cause : Cause} : Keeps k (Lower.fail context cause) P :=
  fun s b s' _ h => absurd h (by simp)

theorem guarded {c : Prop} [Decidable c] {context : List String} {cause : Cause}
    {rest : Lower α} (h : Keeps k rest P) :
    Keeps k (if c then Lower.fail context cause >>= fun _ : PUnit => rest else rest) P := by
  split
  · exact .bind (P := fun _ => True) .fail fun _ _ => h
  · exact h

theorem within {context : String} {x : Lower α} (h : Keeps k x P) :
    Keeps k (x.within context) P :=
  fun _ _ _ hs hx => h hs (Lower.within_eq_ok.mp hx)

theorem require {o : Option α} (h : ∀ a ∈ o, P a) : Keeps k (Lower.require o) P := by
  intro s a s' hs ha
  obtain ⟨rfl, rfl⟩ := Lower.require_eq_ok.mp ha
  exact ⟨hs, h a rfl⟩

theorem get : Keeps k get (Compilation.From k) := by
  intro s a s' hs ha
  obtain ⟨rfl, rfl⟩ := Lower.get_eq_ok.mp ha
  exact ⟨hs, hs⟩

theorem modify {f : Compilation → Compilation} (h : ∀ s, s.From k → (f s).From k) :
    Keeps k (modify f) fun _ => True := by
  intro s a s' hs ha
  obtain rfl := Lower.modify_eq_ok.mp ha
  exact ⟨h s hs, trivial⟩

theorem modifyGet {f : Compilation → α × Compilation}
    (h : ∀ s, s.From k → (f s).2.From k ∧ P (f s).1) : Keeps k (modifyGet f) P := by
  intro s a s' hs ha
  have hf := h s hs
  rw [Lower.modifyGet_eq_ok.mp ha] at hf
  exact hf

end Keeps

namespace Lower

theorem keeps_report (event : Event) : Keeps k (report event) fun _ => True :=
  .modify fun _ hs => ⟨hs.frame, hs.functions, hs.scopes, hs.entries⟩

theorem keeps_enter (task : Task) : Keeps k (enter task) fun _ => True :=
  .modify fun _ hs => ⟨hs.frame, hs.functions, hs.scopes,
    List.forall_mem_cons.mpr ⟨hs.scopes.literate, hs.entries⟩⟩

theorem keeps_functionName : Keeps k functionName k.Spells :=
  Keeps.get.bind fun _ hs => .pure hs.frame.name

theorem keeps_passOver (position : Unsupported) (type : String) (loc : Location) :
    Keeps k (passOver position type loc) fun _ => True :=
  keeps_functionName.bind fun _ _ => keeps_report _

theorem keeps_fresh : Keeps k fresh fun _ => True :=
  .modifyGet fun _ hs => ⟨hs.withScopes (hs.scopes.of_known hs.scopes.known rfl rfl), trivial⟩

theorem keeps_createScope (kind : ScopeKind) : Keeps k (createScope kind) fun _ => True := by
  refine .bind (P := fun _ => True) (.modifyGet fun s hs => ⟨hs.withScopes ?_, trivial⟩)
    fun _ _ => (keeps_report _).bind fun _ _ => .pure trivial
  exact hs.scopes.of_known (fun x v h => hs.scopes.known x v (ScopeTable.knows_create h)) rfl rfl

theorem keeps_pushScope (id : Id) (kind : ScopeKind) :
    Keeps k (pushScope id kind) fun _ => True := by
  refine .bind (.modify fun s hs => hs.withScopes ?_)
    fun _ _ => Keeps.get.bind fun _ _ => keeps_report _
  exact hs.scopes.of_known (fun x v h => hs.scopes.known x v (ScopeTable.knows_push h)) rfl rfl

theorem keeps_leaveScope : Keeps k popScope fun _ => True := by
  refine Keeps.get.bind fun s _ => ?_
  split
  · exact .bind (.modify fun s hs => hs.withScopes (hs.scopes.of_known hs.scopes.known rfl rfl))
      fun _ _ => Keeps.get.bind fun _ _ => keeps_report _
  · exact .pure trivial

theorem keeps_currentScope : Keeps k currentScope fun _ => True :=
  Keeps.get.bind fun _ _ => .bind (.require fun _ _ => trivial) fun _ _ => .pure trivial

theorem keeps_environment : Keeps k environment fun _ => True :=
  Keeps.get.bind fun _ _ => .bind (.require fun _ _ => trivial) fun _ _ => .pure trivial

theorem keeps_scopeOf? (value : Value) :
    Keeps k (scopeOf? value) fun owner => ∀ scope ∈ owner, scope.From k :=
  Keeps.get.bind fun _ hs => .pure fun _ ho => hs.scopes.scope (ScopeTable.scope?_of_scopeOf? ho)

theorem keeps_declare (x : Id) (name : String) : Keeps k (declare x name) fun _ => True :=
  .modify fun _ hs => hs.withScopes (hs.scopes.of_known
    (fun x v h => hs.scopes.known x v (ScopeTable.knows_declare h)) rfl rfl)

theorem keeps_assign (x : Id) (name : String) {value : Value} (hv : value.From k) :
    Keeps k (assign x name value) fun _ => True := by
  refine .modify fun s hs => hs.withScopes (hs.scopes.of_known (fun y v h => ?_) rfl rfl)
  rcases ScopeTable.knows_record h with ⟨-, rfl⟩ | h
  · exact hv
  · exact hs.scopes.known y v h

theorem keeps_modifyFrame {f : Frame → Frame}
    (h : ∀ frame : Frame, frame.From k → (f frame).From k) :
    Keeps k (modifyFrame f) fun _ => True :=
  .modify fun s hs => ⟨h s.frame hs.frame, hs.functions, hs.scopes, hs.entries⟩

theorem keeps_currentBlock : Keeps k currentBlock fun _ => True :=
  Keeps.get.bind fun _ _ => .require fun _ _ => trivial

theorem keeps_append (hc : CodeFrom k code) : Keeps k (append code) fun _ => True := by
  refine Keeps.get.bind fun s hs => ?_
  split
  · rename_i block older hblocks
    have hframe := hs.frame.blocks
    rw [hblocks] at hframe
    obtain ⟨hblock, holder⟩ := List.forall_mem_cons.mp hframe
    exact keeps_modifyFrame fun _ hf => ⟨hf.name, hf.parameters,
      List.forall_mem_cons.mpr ⟨hblock.append hc, holder⟩⟩
  · exact .fail

theorem keeps_startBlock (scope : Id) (loc : Location) :
    Keeps k (startBlock scope loc) fun _ => True :=
  keeps_modifyFrame fun _ hf =>
    ⟨hf.name, hf.parameters, List.forall_mem_cons.mpr ⟨CodeFrom.nil, hf.blocks⟩⟩

theorem keeps_branchToNext (hl : k.place loc) : Keeps k (branchToNext loc) fun _ => True :=
  Keeps.get.bind fun _ _ => keeps_append (.singleton (from_branch hl))

theorem keeps_ensureOpen (loc : Location) : Keeps k (ensureOpen loc) fun _ => True := by
  refine keeps_currentBlock.bind fun block _ => ?_
  split
  · exact keeps_currentScope.bind fun _ _ => keeps_startBlock _ _
  · exact .pure trivial

theorem keeps_emit (hc : CodeFrom k code) : Keeps k (emit loc code) fun _ => True := by
  unfold emit
  split
  · exact .pure trivial
  · exact (keeps_ensureOpen loc).bind fun _ _ => keeps_append hc

end Lower

structure Lowered.From (k : Stock) (e : Lowered) : Prop where
  code : CodeFrom k e.code
  value : e.value.From k

def Key.From (k : Stock) : Key → Prop
  | .name text => k.Spells text
  | .computed v => v.From k

structure Place.From (k : Stock) (place : Place) : Prop where
  code : CodeFrom k place.code
  object : place.object.From k
  key : place.key.From k
  place : k.place place.loc

structure Lower.Modified.From (k : Stock) (m : Lower.Modified) : Prop where
  code : CodeFrom k m.code
  old : m.old.From k
  new : m.new.From k

namespace ScopeTable

variable {t : ScopeTable} {kind : TypeKind} {literal : Literal}

def intern (t : ScopeTable) (kind : TypeKind) (literal : Literal) : ScopeTable :=
  ((t.constant kind literal).2.literalScope kind).2.2

theorem literals_constant (t : ScopeTable) (kind : TypeKind) (literal : Literal) :
    (t.constant kind literal).2.literals = t.literals := by
  cases hc : t.constants.lookup (kind, literal.canonicalText) with
  | some c => rw [constant_of_some hc]
  | none =>
    rw [constant_of_none hc]
    rfl

theorem constants_literalScope (t : ScopeTable) (kind : TypeKind) :
    (t.literalScope kind).2.2.constants = t.constants := by
  cases hx : t.literals.lookup kind with
  | some x => rw [literalScope_of_some hx]
  | none =>
    rw [literalScope_of_none hx]
    rfl

theorem knows_intern {x : Id} (h : (t.intern kind literal).Knows x v) : t.Knows x v := by
  have hconstant : (t.constant kind literal).2.arena = t.arena := by
    cases hc : t.constants.lookup (kind, literal.canonicalText) with
    | some c => rw [constant_of_some hc]
    | none =>
      rw [constant_of_none hc]
      rfl
  have hknows : (t.constant kind literal).2.Knows x v := by
    unfold intern at h
    cases hx : (t.constant kind literal).2.literals.lookup kind with
    | some y => rwa [literalScope_of_some hx] at h
    | none =>
      rw [literalScope_of_none hx] at h
      exact knows_create h
  obtain ⟨scope, name, assignment, hscope, ha, hv⟩ := hknows
  rw [scope?, hconstant] at hscope
  exact ⟨scope, name, assignment, hscope, ha, hv⟩

/-- The constant is in the table, or new and the only one that is. -/
theorem constant_cases (t : ScopeTable) (kind : TypeKind) (literal : Literal) :
    ((kind, literal.canonicalText), (t.constant kind literal).1) ∈ t.constants ∧
      (t.intern kind literal).constants = t.constants ∨
    (t.constant kind literal).1 = ⟨t.next, literal, .ofKind kind⟩ ∧
      (t.intern kind literal).constants =
        ((kind, literal.canonicalText), ⟨t.next, literal, .ofKind kind⟩) :: t.constants := by
  rw [intern, constants_literalScope]
  cases hc : t.constants.lookup (kind, literal.canonicalText) with
  | some c =>
    rw [constant_of_some hc]
    exact .inl ⟨mem_of_lookup hc, rfl⟩
  | none =>
    rw [constant_of_none hc]
    exact .inr ⟨rfl, rfl⟩

theorem isSome_literals_intern (t : ScopeTable) (kind : TypeKind) (literal : Literal)
    (other : TypeKind) : ((t.intern kind literal).literals.lookup other).isSome ↔
      other = kind ∨ (t.literals.lookup other).isSome := by
  unfold intern
  rw [← literals_constant t kind literal]
  generalize (t.constant kind literal).2 = t
  cases hx : t.literals.lookup kind with
  | some x =>
    rw [literalScope_of_some hx]
    refine (or_iff_right_of_imp ?_).symm
    rintro rfl
    rw [hx]
    rfl
  | none =>
    rw [literalScope_of_none hx, lookup_cons_ite]
    split <;> simp [*]

theorem lookup_literals_intern (t : ScopeTable) (kind : TypeKind) (literal : Literal) :
    (t.intern kind literal).literals.lookup kind =
      some ((t.literals.lookup kind).getD (t.constant kind literal).2.next) := by
  unfold intern
  rw [← literals_constant t kind literal]
  generalize (t.constant kind literal).2 = t
  cases hx : t.literals.lookup kind with
  | some x =>
    rw [literalScope_of_some hx]
    exact hx
  | none =>
    rw [literalScope_of_none hx, lookup_cons_ite, if_pos rfl]
    rfl

theorem next_intern_le (t : ScopeTable) (kind : TypeKind) (literal : Literal) :
    t.next ≤ (t.intern kind literal).next := by
  have hconstant : t.next ≤ (t.constant kind literal).2.next := by
    cases hc : t.constants.lookup (kind, literal.canonicalText) with
    | some c => simp only [constant_of_some hc, Nat.le_refl]
    | none =>
      rw [constant_of_none hc]
      exact Nat.le_succ _
  refine Nat.le_trans hconstant ?_
  unfold intern
  cases hx : (t.constant kind literal).2.literals.lookup kind with
  | some x => simp only [literalScope_of_some hx, Nat.le_refl]
  | none =>
    rw [literalScope_of_none hx]
    exact Nat.le_succ _

namespace Literate

theorem intern (h : t.Literate) (ha : kind.Admits literal) : (t.intern kind literal).Literate := by
  rcases constant_cases t kind literal with ⟨hmem, hconstants⟩ | ⟨-, hconstants⟩
  · refine ⟨hconstants ▸ h.kept, fun other => ?_⟩
    rw [isSome_literals_intern, hconstants, h.shared]
    refine or_iff_right_of_imp ?_
    rintro rfl
    exact ⟨_, hmem, rfl⟩
  · refine ⟨?_, fun other => ?_⟩
    · rw [hconstants]
      exact List.forall_mem_cons.mpr ⟨⟨⟨rfl, ha⟩, rfl⟩, h.kept⟩
    · rw [isSome_literals_intern, hconstants, h.shared]
      simp only [List.mem_cons, exists_eq_or_imp]
      exact or_congr_left eq_comm

theorem constant (h : t.Literate) (ha : kind.Admits literal) :
    (t.constant kind literal).1.IsTyped ∧ (t.constant kind literal).1.type.kind = kind ∧
      (t.constant kind literal).1.literal.canonicalText = literal.canonicalText := by
  rcases constant_cases t kind literal with ⟨hmem, -⟩ | ⟨hconstant, -⟩
  · obtain ⟨htyped, hkey⟩ := h.kept _ hmem
    obtain ⟨hkind, htext⟩ := Prod.mk.inj hkey
    exact ⟨htyped, hkind.symm, htext.symm⟩
  · rw [hconstant]
    exact ⟨⟨rfl, ha⟩, rfl, rfl⟩

end Literate

theorem From.intern (h : t.From k) (ha : kind.Admits literal)
    (hl : ∀ x, literal = .num x → k.number x) :
    (t.intern kind literal).From k ∧ (Value.const (t.constant kind literal).1).From k := by
  have hknown : ∀ x v, (t.intern kind literal).Knows x v → v.From k :=
    fun x v hv => h.known x v (knows_intern hv)
  rcases constant_cases t kind literal with ⟨hmem, hconstants⟩ | ⟨hconstant, hconstants⟩
  · exact ⟨⟨hknown, hconstants ▸ h.constants, h.literate.intern ha⟩, h.constants _ hmem⟩
  · have hnew : (Value.const ⟨t.next, literal, .ofKind kind⟩).From k := Value.from_const hl
    rw [hconstant]
    refine ⟨⟨hknown, ?_, h.literate.intern ha⟩, hnew⟩
    rw [hconstants]
    exact List.forall_mem_cons.mpr ⟨hnew, h.constants⟩

end ScopeTable

theorem Lowered.from_value (h : v.From k) : Lowered.From k { value := v } := ⟨.nil, h⟩

namespace Lower

theorem keeps_isLexical (ref : Value) : Keeps k (isLexical ref) fun _ => True :=
  (keeps_scopeOf? ref).bind fun _ _ => Keeps.get.bind fun _ _ => .pure trivial

theorem keeps_chain (hl : k.place loc) (links : Nat) {object : Value} (ho : object.From k) :
    Keeps k (chain loc links object) fun r => CodeFrom k r.1 ∧ r.2.From k := by
  induction links generalizing object with
  | zero => exact .pure ⟨.nil, ho⟩
  | succ links ih =>
    refine keeps_fresh.bind fun id _ => .bind (ih (Value.from_ref id)) fun r hr => .pure ?_
    exact ⟨.cons (from_apply hl (Stock.spells_visible (by decide))
      (List.forall_mem_singleton.mpr ho)) hr.1, hr.2⟩

theorem keeps_resolve (name : String) : Keeps k (resolve name) fun r => r.1.From k := by
  refine Keeps.get.bind fun s hs => ?_
  have howner : ∀ owner ∈ s.scopes.environments, owner.From k := fun owner ho =>
    hs.scopes.scope (ScopeTable.scope?_of_mem_environments ho)
  dsimp only
  split
  · rename_i owner declared links hl
    exact .pure (howner owner (List.mem_of_getElem? (ScopeTable.lookup?_eq_some hl).1))
  · refine .bind (.require fun owner ho => ?_) fun owner ho => .pure ho
    exact howner owner (List.mem_of_getLast? ho)

theorem keeps_read {owner : Option Scope} (hs : ∀ scope ∈ owner, scope.From k) {name : String}
    (hn : k.Spells name) {object : Value} (hc : CodeFrom k code) (ho : object.From k)
    (hl : k.place loc) : Keeps k (read code owner name object loc) (Lowered.From k) := by
  refine keeps_fresh.bind fun id _ => .pure ⟨hc.append (.singleton ?_), ?_⟩
  · exact from_apply hl hn.getField (List.forall_mem_singleton.mpr ho)
  · dsimp only
    split
    · exact ⟨by simp, List.forall_mem_nil _⟩
    · rename_i old link hv
      obtain ⟨assignment, ha, hv⟩ := Option.bind_eq_some_iff.mp hv
      obtain ⟨scope, hscope, ha⟩ := Option.bind_eq_some_iff.mp ha
      exact ⟨by simp, (hs scope hscope name assignment _ ha hv).names⟩
    · exact Value.from_ref id

theorem keeps_recordAccess (origin : Compilation) (name : String) (stored : Option Value)
    (loc : Location) (code : List Instruction) :
    Keeps k (recordAccess origin name stored loc code) fun _ => True :=
  .modify fun _ hs => ⟨hs.frame, hs.functions, hs.scopes, hs.entries⟩

theorem keeps_identifier {name : String} (hn : k.Spells name) {ref : Value} (hr : ref.From k)
    (hl : k.place loc) :
    Keeps k (identifier name ref loc) (Lowered.From k) := by
  refine Keeps.get.bind fun origin _ => .bind (P := Lowered.From k) ?_ fun e he =>
    (keeps_recordAccess origin name none loc e.code).bind fun _ _ => .pure he
  refine (keeps_isLexical ref).bind fun lexical _ => ?_
  split
  · refine Keeps.get.bind fun s _ => ?_
    split
    · exact .pure (Lowered.from_value (Value.from_ref _))
    · refine (keeps_resolve name).bind fun found hf => keeps_environment.bind fun env _ => ?_
      have howner : ∀ scope ∈ some found.1, scope.From k := by
        rintro scope ⟨⟩
        exact hf
      exact (keeps_chain hl _ (Value.from_ofScope env)).bind fun r hr =>
        keeps_read howner hn hr.1 hr.2 hl
  · exact (keeps_scopeOf? ref).bind fun owner ho => keeps_read ho hn .nil hr hl

theorem keeps_declareField {name : String} (hn : k.Spells name) {value object : Value}
    (hv : value.From k) (ho : object.From k) (hl : k.place loc) :
    Keeps k (declareField name value object loc) (CodeFrom k) := by
  have hstore : Keeps k (fresh >>= fun id =>
      pure [.apply loc id (.setField name) [object, value]]) (CodeFrom k) :=
    keeps_fresh.bind fun id _ => .pure (.singleton (from_apply hl hn.setField (by simp [ho, hv])))
  refine (keeps_scopeOf? object).bind fun owner _ => ?_
  split
  · exact (keeps_assign _ name hv).bind fun _ _ => hstore
  · exact hstore

theorem keeps_assignIdentifier {name : String} (hn : k.Spells name) {value ref : Value}
    (hv : value.From k) (hr : ref.From k) (hl : k.place loc) :
    Keeps k (assignIdentifier name value ref loc) (CodeFrom k) := by
  refine Keeps.get.bind fun origin _ => .bind (P := CodeFrom k) ?_ fun code hc =>
    (keeps_recordAccess origin name (some value) loc code).bind fun _ _ => .pure hc
  refine (keeps_isLexical ref).bind fun lexical _ => ?_
  split
  · refine (keeps_resolve name).bind fun found _ => keeps_environment.bind fun env _ => ?_
    refine (keeps_chain hl _ (Value.from_ofScope env)).bind fun r hr =>
      keeps_fresh.bind fun id _ => (keeps_assign _ name hv).bind fun _ _ => .pure ?_
    exact hr.1.append (.singleton (from_apply hl hn.setField (by simp [hr.2, hv])))
  · exact keeps_declareField hn hv hr hl

theorem keeps_knownArgument (node : Node) (ref : Value) :
    Keeps k (knownArgument node ref) fun known => ∀ v ∈ known, v.From k := by
  have hnone : ∀ v ∈ (none : Option Value), v.From k := by simp
  unfold knownArgument
  split
  · rename_i loc name
    refine Keeps.get.bind fun s hs => (keeps_isLexical ref).bind fun lexical _ => ?_
    split
    · split
      · refine .pure fun v hv => ?_
        cases hv
        exact Value.from_ref _
      · split
        · rename_i owner declared hl
          refine .pure fun v hv => ?_
          obtain ⟨assignment, ha, hv⟩ := Option.bind_eq_some_iff.mp hv
          have howner := List.mem_of_getElem? (ScopeTable.lookup?_eq_some hl).1
          exact hs.scopes.scope (ScopeTable.scope?_of_mem_environments howner) name assignment v
            ha hv
        · exact .pure hnone
    · split
      · rename_i declared owner hr
        refine .pure fun v hv => ?_
        obtain ⟨assignment, ha, hv⟩ := Option.bind_eq_some_iff.mp hv
        obtain ⟨scope, hscope, ha⟩ := Option.bind_eq_some_iff.mp ha
        exact hs.scopes.scope (ScopeTable.scope?_of_scopeOf? hscope) declared.name assignment v
          ha hv
      · exact .pure hnone
  · exact .pure hnone

/-- The code of a constant makes the scope of its kind, if there is none. -/
theorem constant_eq_ok {kind : TypeKind} {literal : Literal} {e : Lowered} {s' : Compilation}
    (h : constant kind literal loc s = .ok e s') :
    e = ⟨if (s.scopes.literals.lookup kind).isSome then []
        else [.apply loc (s.scopes.constant kind literal).2.next .newObject []],
      .const (s.scopes.constant kind literal).1⟩ ∧
    ∃ log, s' = { s with scopes := s.scopes.intern kind literal, log } ∧
      s'.entries = s.entries := by
  simp only [constant, bind_eq_ok, modifyGet_eq_ok, Prod.mk.injEq, Prod.exists] at h
  obtain ⟨c, s₁, ⟨rfl, rfl⟩, id, created, s₂, ⟨⟨rfl, rfl⟩, rfl⟩, h⟩ := h
  rw [← ScopeTable.literals_constant s.scopes kind literal]
  cases hx : (s.scopes.constant kind literal).2.literals.lookup kind with
  | some x =>
    rw [ScopeTable.literalScope_of_some hx] at h
    simp only [Bool.false_eq_true, if_false, pure_eq_ok] at h
    obtain ⟨rfl, rfl⟩ := h
    rw [ScopeTable.intern, ScopeTable.literalScope_of_some hx]
    exact ⟨rfl, s.log, rfl, rfl⟩
  | none =>
    rw [ScopeTable.literalScope_of_none hx] at h
    simp only [if_true, bind_eq_ok, report_eq_ok, pure_eq_ok] at h
    obtain ⟨_, _, rfl, rfl, rfl⟩ := h
    rw [ScopeTable.intern, ScopeTable.literalScope_of_none hx]
    exact ⟨rfl, _, rfl, rfl⟩

theorem keeps_constant {kind : TypeKind} {literal : Literal} (ha : kind.Admits literal)
    (hn : ∀ x, literal = .num x → k.number x) (hl : k.place loc) :
    Keeps k (constant kind literal loc) (Lowered.From k) := by
  intro s e s' hs h
  obtain ⟨rfl, log, rfl, hentries⟩ := constant_eq_ok h
  obtain ⟨hscopes, hvalue⟩ := hs.scopes.intern ha hn
  refine ⟨⟨hs.frame, hs.functions, hscopes, hentries ▸ hs.entries⟩, ?_, hvalue⟩
  dsimp only
  split
  · exact .nil
  · exact .singleton (from_newObject hl)

theorem keeps_literal {source : LiteralSource} (hn : ∀ x, source.value = .num x → k.number x)
    (hl : k.place loc) : Keeps k (literal source loc) (Lowered.From k) := by
  unfold literal
  split
  · exact keeps_constant (.regExp _) (by simp) hl
  · split
    · split
      · exact .pure (Lowered.from_value Value.from_null)
      · exact keeps_constant (.string _) (by simp) hl
      · rename_i value hvalue
        refine keeps_constant (.number value) (fun x hx => ?_) hl
        cases hx
        exact hn _ hvalue
      · exact keeps_constant (.boolean _) (by simp) hl
      · exact .fail
    · split
      · exact keeps_constant (.bigint _) (by simp) hl
      · exact .fail

theorem keeps_load {place : Place} (hp : place.From k) : Keeps k (load place) (Lowered.From k) := by
  have hkey := hp.key
  unfold load
  split
  · rename_i name he
    rw [he] at hkey
    exact (keeps_scopeOf? _).bind fun owner ho => keeps_read ho hkey .nil hp.object hp.place
  · rename_i key he
    rw [he] at hkey
    refine keeps_fresh.bind fun id _ => .pure ⟨.singleton ?_, Value.from_ref id⟩
    exact from_apply hp.place (Stock.spells_visible (by decide))
      (by simpa using ⟨hp.object, hkey⟩)

theorem keeps_store {place : Place} (hp : place.From k) (hv : v.From k) :
    Keeps k (store place v) (CodeFrom k) := by
  have hkey := hp.key
  unfold store
  split
  · rename_i name he
    rw [he] at hkey
    exact keeps_declareField hkey hv hp.object hp.place
  · rename_i key he
    rw [he] at hkey
    refine keeps_fresh.bind fun id _ => .pure (.singleton ?_)
    exact from_apply hp.place (Stock.spells_visible (by decide))
      (by simpa using ⟨hp.object, hkey, hv⟩)

theorem keeps_modifyPlace {place : Place} (hp : place.From k) {combine : Value → Lower Lowered}
    (hc : ∀ old, old.From k → Keeps k (combine old) (Lowered.From k)) :
    Keeps k (modifyPlace place combine) (Modified.From k) := by
  refine (keeps_load hp).bind fun old ho => (hc _ ho.value).bind fun new hn =>
    (keeps_store hp hn.value).bind fun write hw => .pure ⟨?_, ho.value, hn.value⟩
  exact ((hp.code.append ho.code).append hn.code).append hw

theorem keeps_assignTarget {target : Node} (ht : target.Offers k) {value ref : Value}
    (hv : value.From k) (hr : ref.From k) :
    Keeps k (assignTarget target value ref) (CodeFrom k) := by
  unfold assignTarget
  split
  · exact keeps_assignIdentifier ht.name hv hr ht.location
  · exact .fail
  · exact (keeps_passOver _ _ _).bind fun _ _ => .pure .nil

theorem keeps_modifyTarget {target : Node} (ht : target.Offers k) {read : Lower Lowered}
    (hread : Keeps k read (Lowered.From k)) {ref : Value} (hr : ref.From k)
    {combine : Value → Lower Lowered}
    (hc : ∀ old, old.From k → Keeps k (combine old) (Lowered.From k)) :
    Keeps k (modifyTarget target read ref combine) (Modified.From k) :=
  hread.bind fun _ ho => (hc _ ho.value).bind fun _ hn => (keeps_enter _).bind fun _ _ =>
    (keeps_assignTarget ht hn.value hr).bind fun _ hw =>
      .pure ⟨(ho.code.append hn.code).append hw, ho.value, hn.value⟩

theorem keeps_declareTarget {target : Node} (ht : target.Offers k) {value ref : Value}
    (hv : value.From k) (hr : ref.From k) :
    Keeps k (declareTarget target value ref) (CodeFrom k) := by
  unfold declareTarget
  split
  · exact keeps_declareField ht.name hv hr ht.location
  · exact (keeps_passOver _ _ _).bind fun _ _ => .pure .nil

theorem keeps_placeOf {object property : Node} {computed : Bool}
    {lowerObject lowerProperty : Lower Lowered} (hl : k.place loc)
    (hn : ∀ name ∈ (property.staticName? computed).toList, k.Spells name)
    (ho : Keeps k lowerObject (Lowered.From k)) (hp : Keeps k lowerProperty (Lowered.From k)) :
    Keeps k (placeOf loc object property computed lowerObject lowerProperty) (Place.From k) := by
  refine Keeps.guarded (ho.within.bind fun base hb => ?_)
  split
  · rename_i name hname
    exact .pure ⟨hb.code, hb.value, hn name (Option.mem_toList.mpr hname), hl⟩
  · exact hp.within.bind fun key hk => .pure ⟨hb.code.append hk.code, hb.value, hk.value, hl⟩

theorem keeps_callOf {callee : Value} {arguments : List Value} (hl : k.place loc)
    (hc : callee.From k) (ha : ∀ v ∈ arguments, v.From k) :
    Keeps k (callOf loc callee arguments) (Lowered.From k) := by
  refine keeps_environment.bind fun env _ => keeps_fresh.bind fun id _ => ?_
  dsimp only
  split
  · rename_i object link?
    have hlink : ∀ link ∈ link?, k.Spells link.definition.shownName := by
      rintro link rfl
      exact hc.names _ (List.mem_singleton_self _)
    refine .bind (.require hlink) fun link hlink =>
      .bind (.require fun _ _ => trivial) fun position _ => Keeps.get.bind fun s _ =>
      .bind (.require fun _ _ => trivial) fun target _ => .pure ⟨.singleton ?_, Value.from_ref id⟩
    refine from_apply hl hlink (List.forall_mem_cons.mpr ⟨Value.from_ofScope env, ?_⟩)
    refine List.forall_mem_map.mpr fun i _ => ?_
    rw [List.getD_eq_getElem?_getD]
    cases hi : arguments[i]? with
    | none => exact Value.from_null
    | some v => exact ha v (List.mem_of_getElem? hi)
  · refine .pure ⟨.singleton (from_apply hl (Stock.spells_visible (by decide)) ?_),
      Value.from_ref id⟩
    exact List.forall_mem_cons.mpr ⟨hc, List.forall_mem_cons.mpr ⟨Value.from_ofScope env, ha⟩⟩

theorem keeps_updateStep {operator : String} (hn : k.Spells operator) (hl : k.place loc)
    {old : Value} (ho : old.From k) :
    Keeps k (updateStep loc operator old) (Lowered.From k) := by
  have hone : ∀ x, Literal.num .one = .num x → k.number x := by
    rintro x ⟨⟩
    exact k.one
  refine (keeps_constant (.number _) hone hl).bind fun one h => keeps_fresh.bind fun id _ =>
    .pure ⟨h.code.append (.singleton (from_apply hl hn.leading ?_)), Value.from_ref id⟩
  simpa using ⟨ho, h.value⟩

theorem keeps_compoundStep {operator : String} (hn : k.Spells operator) (hl : k.place loc)
    {right old : Value} (hr : right.From k) (ho : old.From k) :
    Keeps k (compoundStep loc operator right old) (Lowered.From k) :=
  keeps_fresh.bind fun id _ =>
    .pure ⟨.singleton (from_apply hl hn.compound (by simpa using ⟨ho, hr⟩)), Value.from_ref id⟩

theorem keeps_operation {definition : FunctionDefinition} {operands : List (Lower Lowered)}
    (hl : k.place loc) (hd : k.Spells definition.shownName)
    (ho : ∀ operand ∈ operands, Keeps k operand (Lowered.From k)) :
    Keeps k (operation loc definition operands) (Lowered.From k) := by
  have hrun : ∀ i, Keeps k (operation.run definition i operands) fun r =>
      CodeFrom k r.1 ∧ ∀ v ∈ r.2, v.From k := by
    induction operands with
    | nil => exact fun i => .pure ⟨.nil, List.forall_mem_nil _⟩
    | cons operand rest ih =>
      intro i
      obtain ⟨hoperand, ho⟩ := List.forall_mem_cons.mp ho
      exact hoperand.within.bind fun e he => (ih ho (i + 1)).bind fun r hr =>
        .pure ⟨he.code.append hr.1, List.forall_mem_cons.mpr ⟨he.value, hr.2⟩⟩
  exact (hrun 0).bind fun r hr => keeps_fresh.bind fun id _ =>
    .pure ⟨hr.1.append (.singleton (from_apply hl hd hr.2)), Value.from_ref id⟩

end Lower

end ScopeIR
