import Mathlib.Data.List.Forall2
import Mathlib.Data.List.GetD
import ScopeIR.Proofs.Annotations
import ScopeIR.Proofs.Run

/-! Pairs of computations. Two of them couple if they do the same up to a relation between
their states, and those that differ in annotations and reports alone agree: no step of the
lowering looks at places, at the file or at what was reported before. -/
namespace ScopeIR

/-- What two compilations have in common, and two failures. -/
structure Coupling where
  state : Compilation → Compilation → Prop
  failure : Failure → Failure → Prop
  within : ∀ {e f : Failure} (context : String), failure e f →
    failure (e.within context) (f.within context)

variable {α β γ δ : Type} {c : Coupling}

inductive Paired (c : Coupling) (R : α → β → Prop) :
    EStateM.Result Failure Compilation α → EStateM.Result Failure Compilation β → Prop
  | ok {a : α} {b : β} {s t : Compilation} (result : R a b) (state : c.state s t) :
      Paired c R (.ok a s) (.ok b t)
  | error {e f : Failure} {s t : Compilation} (failure : c.failure e f) (state : c.state s t) :
      Paired c R (.error e s) (.error f t)

def Couples (c : Coupling) (R : α → β → Prop) (x : Lower α) (y : Lower β) : Prop :=
  ∀ ⦃s t⦄, c.state s t → Paired c R (x s) (y t)

namespace Couples

variable {R : α → β → Prop} {Q : γ → δ → Prop} {x : Lower α} {y : Lower β}

protected theorem bind {f : α → Lower γ} {g : β → Lower δ} (h : Couples c R x y)
    (hf : ∀ a b, R a b → Couples c Q (f a) (g b)) : Couples c Q (x >>= f) (y >>= g) := by
  intro s t hs
  have hxy := h hs
  show Paired c Q (EStateM.bind x f s) (EStateM.bind y g t)
  unfold EStateM.bind
  cases hx : x s <;> cases hy : y t <;> rw [hx, hy] at hxy <;> cases hxy
  · rename_i result state
    exact hf _ _ result state
  · rename_i failure state
    exact .error failure state

protected theorem pure {a : α} {b : β} (h : R a b) : Couples c R (pure a) (pure b) :=
  fun _ _ hs => .ok h hs

protected theorem map {f : α → γ} {g : β → δ} (h : Couples c R x y)
    (hf : ∀ a b, R a b → Q (f a) (g b)) :
    Couples c Q (f <$> x) (g <$> y) := by
  rw [map_eq_pure_bind, map_eq_pure_bind]
  exact h.bind fun a b hab => .pure (hf a b hab)

protected theorem fail {context context' : List String} {cause cause' : Cause}
    (h : c.failure { context, cause } { context := context', cause := cause' }) :
    Couples c R (Lower.fail context cause) (Lower.fail context' cause') :=
  fun _ _ hs => .error h hs

protected theorem within (context : String) (h : Couples c R x y) :
    Couples c R (x.within context) (y.within context) := by
  intro s t hs
  have hxy := h hs
  unfold Lower.within
  cases hx : x s <;> cases hy : y t <;> rw [hx, hy] at hxy <;> cases hxy
  · exact .ok ‹_› ‹_›
  · exact .error (c.within context ‹_›) ‹_›

protected theorem get : Couples c c.state get get := fun _ _ hs => .ok hs hs

protected theorem modifyGet {f : Compilation → α × Compilation} {g : Compilation → β × Compilation}
    (h : ∀ s t, c.state s t → R (f s).1 (g t).1 ∧ c.state (f s).2 (g t).2) :
    Couples c R (modifyGet f) (modifyGet g) :=
  fun s t hs => .ok (h s t hs).1 (h s t hs).2

end Couples

/-- Failures for the same reason, told in the same words if places are kept. -/
def Failure.Alike (m : Marking) (e f : Failure) : Prop :=
  f.cause = e.cause ∧ ((∀ loc, m.place loc = loc) → f = e)

/-- The coupling of compilations that differ in their annotations and logs. -/
def relabelled (m : Marking) : Coupling where
  state s t := ∃ log, t = { relabel m s with log }
  failure := Failure.Alike m
  within context h := by
    have hcause : ∀ e : Failure, (e.within context).cause = e.cause := by
      intro e
      unfold Failure.within
      split <;> rfl
    exact ⟨(hcause _).trans (h.1.trans (hcause _).symm), fun hm => congrArg _ (h.2 hm)⟩

/-- The two computations differ in annotations and in what they report alone. -/
abbrev Agree (m : Marking) [Annotated α] (x y : Lower α) : Prop :=
  Couples (relabelled m) (fun a b => b = relabel m a) x y

namespace Couples

variable {m : Marking} [Annotated α] [Annotated β]

theorem andThen {x y : Lower α} {f g : α → Lower β} (h : Agree m x y)
    (hf : ∀ a, Agree m (f a) (g (relabel m a))) : Agree m (x >>= f) (y >>= g) :=
  h.bind fun a _ hab => hab ▸ hf a

theorem reading {f g : Compilation → Lower α}
    (h : ∀ s log, Agree m (f s) (g { relabel m s with log })) :
    Agree m (get >>= f) (get >>= g) := by
  refine Couples.get.bind ?_
  rintro s _ ⟨log, rfl⟩
  exact h s log

theorem updating {f g : Compilation → Compilation}
    (h : ∀ s log, ∃ log', g { relabel m s with log } = { relabel m (f s) with log := log' }) :
    Agree m (modify f) (modify g) := by
  rintro s _ ⟨log, rfl⟩
  exact .ok rfl (h s log)

theorem failing (context : List String) (cause : Cause) :
    Agree m (Lower.fail context cause : Lower α) (Lower.fail context cause) :=
  .fail ⟨rfl, fun _ => rfl⟩

theorem guarded {p q : Prop} [Decidable p] [Decidable q] (hpq : p ↔ q)
    {context context' : List String} {cause : Cause} {x y : Lower α}
    (hc : (∀ loc, m.place loc = loc) → context' = context) (h : Agree m x y) :
    Agree m (if p then Lower.fail context cause >>= fun _ : PUnit => x else x)
      (if q then Lower.fail context' cause >>= fun _ : PUnit => y else y) := by
  by_cases hp : p
  · rw [if_pos hp, if_pos (hpq.mp hp)]
    have hfail : Agree m (Lower.fail context cause : Lower Unit) (Lower.fail context' cause) :=
      .fail ⟨rfl, fun hm => congrArg (Failure.mk · cause) (hc hm)⟩
    exact hfail.andThen fun _ => h
  · rw [if_neg hp, if_neg (mt hpq.mpr hp)]
    exact h

end Couples

namespace Lower

variable {m : Relabelling} [Annotated α]

theorem agree_report (event event' : Event) : Agree m (report event) (report event') :=
  .updating fun _ _ => ⟨_, rfl⟩

theorem agree_enter (task task' : Task) : Agree m (enter task) (enter task') :=
  .updating fun _ _ => ⟨_, rfl⟩

theorem agree_require {o o' : Option α} (h : o' = relabel m o) :
    Agree m (require o) (require o') := by
  subst h
  cases o with
  | none => exact .failing _ _
  | some a => exact .pure rfl

theorem agree_functionName : Agree m functionName functionName :=
  .reading fun _ _ => .pure (m.name _)

theorem agree_passOver (position position' : Unsupported) (type type' : String)
    (loc loc' : Location) :
    Agree m (passOver position type loc) (passOver position' type' loc') :=
  agree_functionName.andThen fun _ => agree_report _ _

theorem agree_takeFromScopes {f : ScopeTable → α × ScopeTable}
    (h : ∀ t, f (relabel m t) = relabel m (f t)) :
    Agree m (modifyGet fun s => ((f s.scopes).1, { s with scopes := (f s.scopes).2 }))
      (modifyGet fun s => ((f s.scopes).1, { s with scopes := (f s.scopes).2 })) := by
  refine .modifyGet ?_
  rintro s _ ⟨log, rfl⟩
  have hf : f (relabel m s).scopes = relabel m (f s.scopes) := h s.scopes
  exact ⟨congrArg Prod.fst hf, log,
    congrArg (fun scopes => { relabel m s with scopes, log }) (congrArg Prod.snd hf)⟩

theorem agree_fresh : Agree m fresh fresh :=
  agree_takeFromScopes (f := ScopeTable.fresh) fun _ => rfl

theorem agree_modifyScopes {f g : ScopeTable → ScopeTable}
    (h : ∀ t, g (relabel m t) = relabel m (f t)) :
    Agree m (modify fun s => { s with scopes := f s.scopes })
      (modify fun s => { s with scopes := g s.scopes }) :=
  .updating fun s log =>
    ⟨log, congrArg (fun scopes => { relabel m s with scopes, log }) (h s.scopes)⟩

theorem agree_createScope (kind : ScopeKind) : Agree m (createScope kind) (createScope kind) := by
  have hcreate := agree_takeFromScopes (m := m)
    (f := fun t => ((t.create kind).1.id, (t.create kind).2)) fun t => by
      rw [t.create_relabel]
      rfl
  exact hcreate.andThen fun _ => (agree_report _ _).andThen fun _ => .pure rfl

theorem agree_pushScope (id : Id) (kind : ScopeKind) :
    Agree m (pushScope id kind) (pushScope id kind) :=
  (agree_modifyScopes (f := (·.push id)) (g := (·.push id)) fun t =>
    t.push_relabel id).andThen fun _ => .reading fun _ _ => agree_report _ _

theorem agree_popScope : Agree m popScope popScope := by
  refine .reading fun s log => ?_
  have hcurrent : ({ relabel m s with log } : Compilation).scopes.current? =
      relabel m s.scopes.current? := s.scopes.current?_relabel
  rw [hcurrent]
  cases s.scopes.current? with
  | some scope =>
    exact (agree_modifyScopes (f := ScopeTable.pop) (g := ScopeTable.pop) fun _ => rfl).andThen
      fun _ => .reading fun _ _ => agree_report _ _
  | none => exact .pure rfl

theorem agree_currentScope : Agree m currentScope currentScope :=
  .reading fun s _ => (agree_require s.scopes.current?_relabel).andThen fun _ => .pure rfl

theorem agree_environment : Agree m environment environment :=
  .reading fun s _ => (agree_require s.scopes.environment?_relabel).andThen fun _ => .pure rfl

theorem agree_scopeOf? (value : Value) : Agree m (scopeOf? value) (scopeOf? (relabel m value)) :=
  .reading fun s _ => .pure (s.scopes.scopeOf?_relabel value)

theorem agree_modifyScope (id : Id) {f g : Scope → Scope}
    (h : ∀ s, g (relabel m s) = relabel m (f s)) :
    Agree m (modifyScope id f) (modifyScope id g) :=
  agree_modifyScopes (f := (·.modifyScope id f)) (g := (·.modifyScope id g)) fun t =>
    t.modifyScope_relabel id h

theorem agree_declare (id : Id) (name : String) : Agree m (declare id name) (declare id name) :=
  agree_modifyScope id fun _ => rfl

theorem agree_assign (id : Id) (name : String) (value : Value) :
    Agree m (assign id name value) (assign id name (relabel m value)) :=
  agree_modifyScope id fun s => (s.declare name).assign_relabel _ (some value)

theorem agree_modifyFrame {f g : Frame → Frame}
    (h : ∀ frame, g (relabel m frame) = relabel m (f frame)) :
    Agree m (modifyFrame f) (modifyFrame g) :=
  .updating fun s log => ⟨log, congrArg (fun frame => { relabel m s with frame, log }) (h s.frame)⟩

theorem agree_currentBlock : Agree m currentBlock currentBlock :=
  .reading fun _ _ => agree_require List.head?_map

theorem agree_append {code code' : List Instruction} (h : code' = relabel m code) :
    Agree m (append code) (append code') := by
  subst h
  refine .reading fun s log => ?_
  have hblocks : ({ relabel m s with log } : Compilation).frame.blocks =
      relabel m s.frame.blocks := rfl
  rw [hblocks]
  cases s.frame.blocks with
  | cons block older =>
    refine agree_modifyFrame fun frame => ?_
    rw [add_relabel]
    rfl
  | nil => exact .failing _ _

theorem agree_startBlock (scope : Id) (loc : Location) :
    Agree m (startBlock scope loc) (startBlock scope (m.place loc)) := by
  refine agree_modifyFrame fun frame => ?_
  have hindex : (relabel m frame).blocks.length = frame.blocks.length := length_relabel _
  rw [hindex]
  rfl

theorem agree_branchToNext (loc : Location) :
    Agree m (branchToNext loc) (branchToNext (m.place loc)) := by
  refine .reading fun s log => agree_append ?_
  have hindex : ({ relabel m s with log } : Compilation).frame.blocks.length =
      s.frame.blocks.length := length_relabel _
  rw [hindex]
  rfl

theorem agree_ensureOpen (loc : Location) :
    Agree m (ensureOpen loc) (ensureOpen (m.place loc)) := by
  refine agree_currentBlock.andThen fun block => ?_
  rw [isTerminated_relabel]
  split
  · exact agree_currentScope.andThen fun _ => agree_startBlock _ _
  · exact .pure rfl

theorem agree_emit (loc : Location) {code code' : List Instruction} (h : code' = relabel m code) :
    Agree m (emit loc code) (emit (m.place loc) code') := by
  subst h
  unfold emit
  rw [isEmpty_relabel]
  split
  · exact .pure rfl
  · exact (agree_ensureOpen loc).andThen fun _ => agree_append rfl

theorem agree_isLexical (ref : Value) :
    Agree m (isLexical ref) (isLexical (relabel m ref)) := by
  refine (agree_scopeOf? ref).andThen fun scope => .reading fun s log => .pure ?_
  have hcurrent : ({ relabel m s with log } : Compilation).scopes.current? =
      relabel m s.scopes.current? := s.scopes.current?_relabel
  rw [hcurrent]
  cases scope <;> cases s.scopes.current? <;> rfl

theorem agree_chain (loc : Location) (links : Nat) (object : Value) :
    Agree m (chain loc links object) (chain (m.place loc) links (relabel m object)) := by
  induction links generalizing object with
  | zero => exact .pure rfl
  | succ links ih =>
    exact agree_fresh.andThen fun id => (ih (.ref id)).andThen fun _ => .pure (by simp)

theorem agree_resolve (name : String) : Agree m (resolve name) (resolve name) := by
  refine .reading fun s log => ?_
  have hlookup : ({ relabel m s with log } : Compilation).scopes.lookup? name =
      relabel m (s.scopes.lookup? name) := s.scopes.lookup?_relabel name
  have henvironments : ({ relabel m s with log } : Compilation).scopes.environments =
      relabel m s.scopes.environments := s.scopes.environments_relabel
  dsimp only
  rw [hlookup, henvironments]
  cases s.scopes.lookup? name with
  | some found => exact .pure rfl
  | none =>
    refine (agree_require List.getLast?_map).andThen fun outermost => .pure ?_
    rw [length_relabel]
    rfl

theorem known_relabel (owner : Option Scope) (name : String) :
    ((relabel m owner).bind (·.assigned? name)).bind (·.value) =
      relabel m ((owner.bind (·.assigned? name)).bind (·.value)) := by
  cases owner with
  | none => rfl
  | some scope =>
    show ((relabel m scope).assigned? name).bind (·.value) =
      relabel m ((scope.assigned? name).bind (·.value))
    rw [scope.assigned?_relabel]
    cases scope.assigned? name <;> rfl

theorem agree_read (code : List Instruction) (owner : Option Scope) (name : String)
    (object : Value) (loc : Location) : Agree m (read code owner name object loc)
      (read (relabel m code) (relabel m owner) name (relabel m object) (m.place loc)) := by
  refine agree_fresh.andThen fun id => .pure ?_
  rw [known_relabel]
  have hcode : relabel m (code ++ [.apply loc id (.getField name) [object]]) =
      relabel m code ++ [.apply (m.place loc) id (.getField name) [relabel m object]] := by
    simp
  refine congrArg₂ Lowered.mk hcode.symm ?_
  rcases (owner.bind (·.assigned? name)).bind (·.value) with _ | (_ | _ | _ | _) <;> rfl

theorem agree_recordAccess (origin : Compilation) (log : List Note) (name : String)
    (stored : Option Value) (loc : Location) (code : List Instruction) :
    Agree m (recordAccess origin name stored loc code)
      (recordAccess { relabel m origin with log } name (relabel m stored) (m.place loc)
        (relabel m code)) :=
  .updating fun _ log => ⟨log, rfl⟩

theorem agree_readName (name : String) (ref : Value) (loc : Location) :
    Agree m (readName name ref loc) (readName name (relabel m ref) (m.place loc)) := by
  refine (agree_isLexical ref).andThen fun lexical => ?_
  rw [relabel_bool]
  split
  · refine .reading fun s log => ?_
    have hdeclared : Parameter.declared? name (relabel m s).frame.parameters =
        relabel m (Parameter.declared? name s.frame.parameters) := declared?_relabel _ _
    dsimp only
    rw [hdeclared]
    cases Parameter.declared? name s.frame.parameters with
    | some p => exact .pure rfl
    | none =>
      exact (agree_resolve name).andThen fun _ => agree_environment.andThen fun _ =>
        (agree_chain loc _ _).andThen fun _ => agree_read _ (some _) _ _ _
  · exact (agree_scopeOf? ref).andThen fun _ => agree_read [] _ _ _ _

theorem agree_identifier (name : String) (ref : Value) (loc : Location) :
    Agree m (identifier name ref loc) (identifier name (relabel m ref) (m.place loc)) :=
  .reading fun _ _ => (agree_readName name ref loc).andThen fun _ =>
    (agree_recordAccess _ _ _ none _ _).andThen fun _ => .pure rfl

theorem agree_declareField (name : String) (value object : Value) (loc : Location) :
    Agree m (declareField name value object loc)
      (declareField name (relabel m value) (relabel m object) (m.place loc)) := by
  refine (agree_scopeOf? object).andThen fun scope => ?_
  cases scope with
  | some scope =>
    exact (agree_assign scope.id name value).andThen fun _ => agree_fresh.andThen fun _ =>
      .pure (by simp)
  | none => exact agree_fresh.andThen fun _ => .pure (by simp)

theorem agree_writeName (name : String) (value ref : Value) (loc : Location) :
    Agree m (writeName name value ref loc)
      (writeName name (relabel m value) (relabel m ref) (m.place loc)) := by
  refine (agree_isLexical ref).andThen fun lexical => ?_
  rw [relabel_bool]
  split
  · exact (agree_resolve name).andThen fun _ => agree_environment.andThen fun _ =>
      (agree_chain loc _ _).andThen fun _ => agree_fresh.andThen fun _ =>
      (agree_assign _ _ _).andThen fun _ => .pure (by simp)
  · exact agree_declareField name value ref loc

theorem agree_assignIdentifier (name : String) (value ref : Value) (loc : Location) :
    Agree m (assignIdentifier name value ref loc)
      (assignIdentifier name (relabel m value) (relabel m ref) (m.place loc)) :=
  .reading fun _ _ => (agree_writeName name value ref loc).andThen fun _ =>
    (agree_recordAccess _ _ _ (some value) _ _).andThen fun _ => .pure rfl

theorem agree_knownArgument (node : Node) (ref : Value) :
    Agree m (knownArgument node ref) (knownArgument (node.relocate m.place) (relabel m ref)) := by
  cases node with
  | identifier _ name =>
    refine .reading fun s log => (agree_isLexical ref).andThen fun lexical => ?_
    rw [relabel_bool]
    split
    · have hdeclared : Parameter.declared? name (relabel m s).frame.parameters =
          relabel m (Parameter.declared? name s.frame.parameters) := declared?_relabel _ _
      have hlookup : (relabel m s).scopes.lookup? name = relabel m (s.scopes.lookup? name) :=
        s.scopes.lookup?_relabel name
      dsimp only
      rw [hdeclared, hlookup]
      cases Parameter.declared? name s.frame.parameters with
      | some p => exact .pure rfl
      | none =>
        rcases s.scopes.lookup? name with _ | ⟨owner, _, _ | links⟩
        · exact .pure rfl
        · exact .pure (known_relabel (some owner) name)
        · exact .pure rfl
    · have hresolve : (relabel m s).scopes.resolve? name (some (relabel m ref)) =
          relabel m (s.scopes.resolve? name (some ref)) := s.scopes.resolve?_relabel name ref
      dsimp only
      rw [hresolve]
      cases s.scopes.resolve? name (some ref) with
      | none => exact .pure rfl
      | some found =>
        refine .pure ?_
        show ((relabel m s.scopes).known? found.1.name (some (relabel m ref))).bind (·.value) =
          relabel m ((s.scopes.known? found.1.name (some ref)).bind (·.value))
        rw [s.scopes.known?_relabel]
        cases s.scopes.known? found.1.name (some ref) <;> rfl
  | _ => exact .pure rfl

theorem agree_constant (kind : TypeKind) (literal : Literal) (loc : Location) :
    Agree m (constant kind literal loc) (constant kind literal (m.place loc)) := by
  have hconstant := agree_takeFromScopes (m := m) (f := (·.constant kind literal)) fun t =>
    t.constant_relabel kind literal
  have hscope := agree_takeFromScopes (m := m) (f := fun t =>
      (((t.literalScope kind).1, (t.literalScope kind).2.1), (t.literalScope kind).2.2)) fun t => by
    rw [t.literalScope_relabel kind]
    rfl
  refine hconstant.andThen fun c => hscope.andThen fun scope => ?_
  obtain ⟨id, created⟩ := scope
  cases created with
  | true => exact (agree_report _ _).andThen fun _ => .pure (by simp)
  | false => exact .pure rfl

theorem agree_literal (source : LiteralSource) (loc : Location) :
    Agree m (literal source loc) (literal source (m.place loc)) := by
  unfold literal
  split
  · exact agree_constant _ _ _
  · split
    · split
      · exact .pure rfl
      · exact agree_constant _ _ _
      · exact agree_constant _ _ _
      · exact agree_constant _ _ _
      · exact .failing _ _
    · split
      · exact agree_constant _ _ _
      · exact .failing _ _

theorem agree_load (place : Place) : Agree m (load place) (load (relabel m place)) := by
  obtain ⟨code, object, key, loc⟩ := place
  cases key with
  | name name => exact (agree_scopeOf? _).andThen fun _ => agree_read [] _ _ _ _
  | computed key => exact agree_fresh.andThen fun _ => .pure (by simp)

theorem agree_store (place : Place) (value : Value) :
    Agree m (store place value) (store (relabel m place) (relabel m value)) := by
  obtain ⟨code, object, key, loc⟩ := place
  cases key with
  | name name => exact agree_declareField _ _ _ _
  | computed key => exact agree_fresh.andThen fun _ => .pure (by simp)

theorem agree_modifyPlace (place : Place) {combine combine' : Value → Lower Lowered}
    (h : ∀ old, Agree m (combine old) (combine' (relabel m old))) :
    Agree m (modifyPlace place combine) (modifyPlace (relabel m place) combine') :=
  (agree_load place).andThen fun old => (h old.value).andThen fun new =>
    (agree_store place new.value).andThen fun _ => .pure (by simp)

theorem agree_updateStep (loc : Location) (operator : String) (old : Value) :
    Agree m (updateStep loc operator old)
      (updateStep (m.place loc) operator (relabel m old)) := by
  have hkept := m.primitive _ (FunctionDefinition.name_leadingOperator operator)
  exact (agree_constant _ _ _).andThen fun _ => agree_fresh.andThen fun _ =>
    .pure (by simp [hkept])

theorem agree_compoundStep (loc : Location) (operator : String) (right old : Value) :
    Agree m (compoundStep loc operator right old)
      (compoundStep (m.place loc) operator (relabel m right) (relabel m old)) := by
  have hkept := m.primitive _ (FunctionDefinition.name_compoundOperator operator)
  exact agree_fresh.andThen fun _ => .pure (by simp [hkept])

theorem agree_callOf (loc : Location) (callee : Value) (arguments : List Value) :
    Agree m (callOf loc callee arguments)
      (callOf (m.place loc) (relabel m callee) (relabel m arguments)) := by
  refine agree_environment.andThen fun env => agree_fresh.andThen fun id => ?_
  cases callee with
  | func _ link =>
    refine (agree_require rfl).andThen fun link => ?_
    have hposition : (relabel m link).position = relabel m link.position := by
      show link.position = Option.map (relabel m) link.position
      cases link.position <;> rfl
    refine (agree_require hposition).andThen fun position => .reading fun s log =>
      (agree_require List.getElem?_map).andThen fun target => .pure ?_
    have hcount : (relabel m target).parameters.length = target.parameters.length :=
      length_relabel _
    have hpassed : ∀ n, relabel m ((List.range n).map fun i => arguments.getD i .null) =
        (List.range n).map fun i => (relabel m arguments).getD i .null := by
      intro n
      show List.map (relabel m) _ = _
      rw [List.map_map]
      exact List.map_congr_left fun i _ => (List.getD_map arguments .null (relabel m)).symm
    rw [hcount, relabel_lowered, relabel_cons, relabel_apply, relabel_cons, hpassed]
    rfl
  | ref | const | scope => exact .pure (by simp)

theorem agree_operation (loc : Location) {definition : FunctionDefinition}
    (hd : definition.name = definition.signature) {operands operands' : List (Lower Lowered)}
    (h : List.Forall₂ (Agree m) operands operands') :
    Agree m (operation loc definition operands)
      (operation (m.place loc) definition operands') := by
  have hrun : ∀ i, Agree m (operation.run definition i operands)
      (operation.run definition i operands') := by
    induction h with
    | nil => exact fun _ => .pure rfl
    | cons hx _ ih =>
      exact fun i => (hx.within _).andThen fun _ => (ih (i + 1)).andThen fun _ => .pure (by simp)
  have hkept := m.primitive _ hd
  exact (hrun 0).andThen fun _ => agree_fresh.andThen fun _ => .pure (by simp [hkept])

theorem agree_addClosure (id : Id) (link : FunctionLink) :
    Agree m (addClosure id link) (addClosure id (relabel m link)) := by
  refine agree_modifyFrame fun frame => ?_
  exact congrArg (fun closures => { relabel m frame with closures })
    (relabel_append frame.closures [(id, some link)]).symm

theorem agree_parameters {params params' : List Node}
    (h : List.Forall₂ (fun p q => q.parameterName = p.parameterName ∧
      q.location = m.place p.location) params params') :
    Agree m (parameters params) (parameters params') := by
  induction h with
  | nil => exact .pure rfl
  | cons hnode _ ih =>
    refine agree_fresh.andThen fun id => ih.andThen fun ps => .pure ?_
    exact congrArg₂ (fun name location => ({ id, name, location } : Parameter) :: relabel m ps)
      hnode.1 hnode.2

theorem agree_bindParameters (scope : Id) (ps : List Parameter) :
    Agree m (bindParameters scope ps) (bindParameters scope (relabel m ps)) := by
  induction ps with
  | nil => exact .pure rfl
  | cons p rest ih =>
    rw [relabel_cons, bindParameters, bindParameters]
    dsimp only
    show Agree m _ (if (!p.name.isEmpty) = true then _ else _)
    split
    · exact (agree_assign _ _ p.value).andThen fun _ => agree_fresh.andThen fun _ =>
        (agree_append (by simp)).andThen fun _ => ih
    · exact ih

theorem agree_enterFunction (definition : FunctionDefinition) {params params' : List Node}
    (h : Agree m (parameters params) (parameters params')) (loc : Location) (before : List Block) :
    Agree m (enterFunction definition params loc before)
      (enterFunction (m.definition definition) params' (m.place loc) (relabel m before)) := by
  refine agree_fresh.andThen fun parent => h.andThen fun declared =>
    (agree_createScope _).andThen fun scope => ?_
  refine Couples.andThen (agree_modifyFrame ?_) fun _ => ?_
  · exact fun _ => rfl
  rw [isEmpty_relabel]
  dsimp only
  split
  · exact (agree_branchToNext loc).andThen fun _ => (agree_startBlock _ _).andThen fun _ =>
      (agree_pushScope _ _).andThen fun _ => (agree_append (by simp)).andThen fun _ =>
      agree_fresh.andThen fun _ => (agree_append (by simp [Parameter.value])).andThen fun _ =>
      .pure rfl
  · exact (agree_startBlock _ _).andThen fun _ => (agree_pushScope _ _).andThen fun _ =>
      (agree_append (by simp)).andThen fun _ => agree_fresh.andThen fun _ =>
      (agree_append (by simp [Parameter.value])).andThen fun _ => .pure rfl

theorem agree_conclude {f g : Compilation → Function}
    (h : ∀ s log, g { relabel m s with log } = relabel m (f s)) (outer : Frame) :
    Agree m (modify fun s => { s with functions := s.functions ++ [f s], frame := outer })
      (modify fun s =>
        { s with functions := s.functions ++ [g s], frame := relabel m outer }) := by
  refine .updating fun s log => ⟨log, ?_⟩
  have hfunctions : relabel m s.functions ++ [relabel m (f s)] = relabel m (s.functions ++ [f s]) :=
    (relabel_append s.functions [f s]).symm
  rw [h]
  exact congrArg (fun functions => { relabel m s with functions, frame := relabel m outer, log })
    hfunctions

theorem agree_finishFunction (loc : Location) (outer : Frame) :
    Agree m (finishFunction loc outer) (finishFunction (m.place loc) (relabel m outer)) := by
  have hblocks : ∀ s : Compilation, (relabel m s).frame.blocks.reverse =
      relabel m s.frame.blocks.reverse := fun s => (relabel_reverse _).symm
  refine agree_currentBlock.andThen fun last => ?_
  rw [isTerminated_relabel]
  dsimp only
  split
  · refine (agree_append rfl).andThen fun _ => .reading fun s _ => ?_
    refine (agree_conclude (fun s log => ?_) outer).andThen fun _ =>
      .pure (length_relabel s.functions)
    rw [hblocks]
    rfl
  · refine .reading fun s _ => (agree_conclude (fun s log => ?_) outer).andThen fun _ =>
      .pure (length_relabel s.functions)
    rw [hblocks]
    rfl

theorem agree_function (name : String) {params params' : List Node} (count count' : Nat)
    (loc : Location) (before : List Block) {body body' : Lower Unit}
    (hp : Agree m (parameters params) (parameters params')) (hb : Agree m body body') :
    Agree m (function name params count loc before body)
      (function name params' count' (m.place loc) (relabel m before) body') := by
  refine (agree_report _ _).andThen fun _ => .reading fun s _ => .reading fun s' _ => ?_
  have hd : m.definition (.user name s'.file) = .user name (relabel m s').file :=
    m.user name s'.file
  dsimp only
  rw [← hd]
  exact (agree_enterFunction (.user name s'.file) hp loc before).andThen fun entered =>
    (agree_bindParameters entered.1 entered.2).andThen fun _ => (hb.within _).andThen fun _ =>
    (agree_finishFunction loc s.frame).andThen fun _ => agree_popScope.andThen fun _ => .pure rfl

theorem agree_nestedName (id : Id) : Agree m (nestedName id) (nestedName id) :=
  agree_functionName.andThen fun _ => .pure rfl

theorem agree_functionObject {params params' : List Node} (count count' : Nat) (loc : Location)
    {body body' : Lower Unit} (hp : Agree m (parameters params) (parameters params'))
    (hb : Agree m body body') : Agree m (functionObject params count loc body)
      (functionObject params' count' (m.place loc) body') :=
  agree_fresh.andThen fun _ => (agree_nestedName _).andThen fun _ =>
    (agree_function _ _ _ _ [] hp hb).andThen fun _ => (agree_addClosure _ _).andThen fun _ =>
    .pure (by simp)

theorem agree_returnValue (loc : Location) {argument argument' : Lower Lowered}
    (h : Agree m argument argument') :
    Agree m (returnValue loc argument) (returnValue (m.place loc) argument') :=
  (h.within _).andThen fun _ => agree_emit _ (by simp)

theorem agree_enterBlock (loc : Location) (parent : Id) :
    Agree m (enterBlock loc parent) (enterBlock (m.place loc) parent) :=
  (agree_createScope _).andThen fun _ => (agree_pushScope _ _).andThen fun _ =>
    (agree_branchToNext loc).andThen fun _ => (agree_startBlock _ _).andThen fun _ =>
    agree_fresh.andThen fun _ => agree_append (by simp)

theorem agree_leaveBlock (loc : Location) :
    Agree m (leaveBlock loc) (leaveBlock (m.place loc)) := by
  refine agree_popScope.andThen fun _ => agree_currentBlock.andThen fun last => ?_
  rw [isTerminated_relabel]
  split
  · exact (agree_branchToNext loc).andThen fun _ => agree_currentScope.andThen fun _ =>
      agree_startBlock _ _
  · exact .pure rfl

theorem agree_hostGlobals (names : List String) :
    Agree m (hostGlobals names) (hostGlobals names) := by
  induction names with
  | nil => exact .pure rfl
  | cons name rest ih => exact agree_fresh.andThen fun _ => ih.andThen fun _ => .pure rfl

theorem agree_seedGlobals (scope : Id) (loc : Location) (globals : List Global) :
    Agree m (seedGlobals scope loc globals)
      (seedGlobals scope (m.place loc) (relabel m globals)) := by
  induction globals with
  | nil => exact .pure rfl
  | cons g rest ih =>
    exact agree_fresh.andThen fun id => (agree_modifyScope _ fun s =>
        (s.withVariable g.target).assign_relabel g.target (some (.ref id))).andThen fun _ =>
      (agree_append (by simp)).andThen fun _ => ih

theorem agree_reportFunctions (functions : List Function) :
    Agree m (reportFunctions functions) (reportFunctions (relabel m functions)) := by
  induction functions with
  | nil => exact .pure rfl
  | cons f rest ih => exact (agree_report _ _).andThen fun _ => ih

theorem agree_program (hosts : List String) (loc : Location) (sourceType : String)
    {body body' : List Node} (h : Agree m (statements body) (statements body')) :
    Agree m (program hosts (.program loc sourceType body))
      (program hosts (.program (m.place loc) sourceType body')) :=
  (agree_createScope _).andThen fun _ => (agree_startBlock _ _).andThen fun _ =>
    (agree_pushScope _ _).andThen fun _ => (agree_append (by simp)).andThen fun _ =>
    agree_fresh.andThen fun _ => (agree_append (by simp)).andThen fun _ =>
    (agree_assign _ _ _).andThen fun _ => (agree_hostGlobals hosts).andThen fun hosts =>
    (agree_seedGlobals _ _ (standardGlobals ++ hosts)).andThen fun _ => .reading fun _ _ =>
    (agree_function mainName _ _ loc _ (agree_parameters .nil) h).andThen fun _ =>
    agree_popScope.andThen fun _ => .reading fun _ _ => (agree_reportFunctions _).andThen fun _ =>
    .pure rfl

end Lower

end ScopeIR
