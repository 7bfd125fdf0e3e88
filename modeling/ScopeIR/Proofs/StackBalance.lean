import ScopeIR.Proofs.Bodies

/-! The stack of scopes. Whatever state an expression, a statement or a function is lowered in,
the stack is as it was when it succeeds: scopes that are entered are left again. -/
namespace ScopeIR

variable {α β : Type} {s s' s₁ s₂ : Compilation} {x : Id}

/-- The state that a step ends in, also if it fails. -/
def stateOf : EStateM.Result Failure Compilation α → Compilation
  | .ok _ s => s
  | .error _ s => s

theorem stateOf_bind {R : Compilation → Compilation → Prop}
    (htrans : ∀ {s s₁ s₂}, R s s₁ → R s₁ s₂ → R s s₂) {x : Lower α} {f : α → Lower β}
    (hx : ∀ s, R s (stateOf (x s))) (hf : ∀ a s, R s (stateOf (f a s))) (s : Compilation) :
    R s (stateOf ((x >>= f) s)) := by
  have hs := hx s
  show R s (stateOf (EStateM.bind x f s))
  unfold EStateM.bind
  cases h : x s with
  | ok a s₁ =>
    rw [h] at hs
    exact htrans hs (hf a s₁)
  | error failure s₁ =>
    rw [h] at hs
    exact hs

/-- The stack is the same, and the scopes that were there still are. -/
structure Level (s s' : Compilation) : Prop where
  stack : s'.scopes.stack = s.scopes.stack
  scopes : ∀ x, (s.scopes.kind? x).isSome → (s'.scopes.kind? x).isSome

theorem Level.refl (s : Compilation) : Level s s := ⟨rfl, fun _ => id⟩

theorem Level.trans (h : Level s s₁) (h' : Level s₁ s₂) : Level s s₂ :=
  ⟨h'.stack.trans h.stack, fun x hx => h'.scopes x (h.scopes x hx)⟩

/-- No scope was entered or left, and no task was started. -/
structure Still (s s' : Compilation) : Prop extends Level s s' where
  entries : s'.entries = s.entries

theorem Still.refl (s : Compilation) : Still s s := ⟨.refl s, rfl⟩

theorem Still.trans (h : Still s s₁) (h' : Still s₁ s₂) : Still s s₂ :=
  ⟨h.toLevel.trans h'.toLevel, h'.entries.trans h.entries⟩

theorem Still.of_kinds (stack : s'.scopes.stack = s.scopes.stack)
    (kinds : ∀ x, s'.scopes.kind? x = s.scopes.kind? x) (entries : s'.entries = s.entries) :
    Still s s' :=
  ⟨⟨stack, fun x hx => by rwa [kinds]⟩, entries⟩

theorem Still.create (s : Compilation) (kind : ScopeKind) :
    Still s { s with scopes := (s.scopes.create kind).2 } := by
  refine ⟨⟨rfl, fun x hx => ?_⟩, rfl⟩
  rw [ScopeTable.kind?_create]
  split
  · rfl
  · exact hx

def Calm (step : Lower α) : Prop := ∀ s, Still s (stateOf (step s))

namespace Calm

protected theorem bind {x : Lower α} {f : α → Lower β} (hx : Calm x) (hf : ∀ a, Calm (f a)) :
    Calm (x >>= f) := stateOf_bind (R := Still) Still.trans hx hf

protected theorem pure {a : α} : Calm (pure a) := Still.refl

theorem fail {context : List String} {cause : Cause} : Calm (Lower.fail context cause : Lower α) :=
  Still.refl

theorem require {o : Option α} : Calm (Lower.require o) := by
  cases o with
  | none => exact .fail
  | some a => exact .pure

protected theorem get : Calm get := Still.refl

theorem modify {f : Compilation → Compilation} (h : ∀ s, Still s (f s)) : Calm (modify f) := h

theorem modifyGet {f : Compilation → α × Compilation} (h : ∀ s, Still s (f s).2) :
    Calm (modifyGet f) := h

end Calm

namespace Lower

theorem calm_report (event : Event) : Calm (report event) :=
  .modify fun _ => .of_kinds rfl (fun _ => rfl) rfl

theorem calm_functionName : Calm functionName := Calm.get.bind fun _ => .pure

theorem calm_passOver (position : Unsupported) (type : String) (loc : Location) :
    Calm (passOver position type loc) := calm_functionName.bind fun _ => calm_report _

theorem calm_fresh : Calm fresh := .modifyGet fun _ => .of_kinds rfl (fun _ => rfl) rfl

theorem calm_createScope (kind : ScopeKind) : Calm (createScope kind) :=
  (Calm.modifyGet fun s => .create s kind).bind fun _ => (calm_report _).bind fun _ => .pure

theorem calm_currentScope : Calm currentScope :=
  Calm.get.bind fun _ => Calm.require.bind fun _ => .pure

theorem calm_environment : Calm environment :=
  Calm.get.bind fun _ => Calm.require.bind fun _ => .pure

theorem calm_scopeOf? (value : Value) : Calm (scopeOf? value) := Calm.get.bind fun _ => .pure

theorem calm_declare (id : Id) (name : String) : Calm (declare id name) :=
  .modify fun s => .of_kinds rfl (fun x => s.scopes.kind?_declare id x name) rfl

theorem calm_assign (id : Id) (name : String) (value : Value) : Calm (assign id name value) :=
  .modify fun s => .of_kinds rfl (fun x => s.scopes.kind?_record id x name value) rfl

theorem calm_modifyFrame (f : Frame → Frame) : Calm (modifyFrame f) :=
  .modify fun _ => .of_kinds rfl (fun _ => rfl) rfl

theorem calm_currentBlock : Calm currentBlock := Calm.get.bind fun _ => .require

theorem calm_append (code : List Instruction) : Calm (append code) := by
  refine Calm.get.bind fun s => ?_
  split
  · exact calm_modifyFrame _
  · exact .fail

theorem calm_startBlock (scope : Id) (loc : Location) : Calm (startBlock scope loc) :=
  calm_modifyFrame _

theorem calm_branchToNext (loc : Location) : Calm (branchToNext loc) :=
  Calm.get.bind fun _ => calm_append _

theorem calm_ensureOpen (loc : Location) : Calm (ensureOpen loc) := by
  refine calm_currentBlock.bind fun block => ?_
  split
  · exact calm_currentScope.bind fun _ => calm_startBlock _ _
  · exact .pure

theorem calm_emit (loc : Location) (code : List Instruction) : Calm (emit loc code) := by
  unfold emit
  split
  · exact .pure
  · exact (calm_ensureOpen loc).bind fun _ => calm_append _

theorem calm_isLexical (ref : Value) : Calm (isLexical ref) :=
  (calm_scopeOf? ref).bind fun _ => Calm.get.bind fun _ => .pure

theorem calm_chain (loc : Location) (links : Nat) (object : Value) :
    Calm (chain loc links object) := by
  induction links generalizing object with
  | zero => exact .pure
  | succ links ih => exact calm_fresh.bind fun _ => (ih _).bind fun _ => .pure

theorem calm_resolve (name : String) : Calm (resolve name) := by
  refine Calm.get.bind fun s => ?_
  dsimp only
  split
  · exact .pure
  · exact Calm.require.bind fun _ => .pure

theorem calm_read (code : List Instruction) (owner : Option Scope) (name : String)
    (object : Value) (loc : Location) : Calm (read code owner name object loc) :=
  calm_fresh.bind fun _ => .pure

theorem calm_recordAccess (origin : Compilation) (name : String) (stored : Option Value)
    (loc : Location) (code : List Instruction) :
    Calm (recordAccess origin name stored loc code) :=
  .modify fun _ => .of_kinds rfl (fun _ => rfl) rfl

theorem calm_identifier (name : String) (ref : Value) (loc : Location) :
    Calm (identifier name ref loc) := by
  have hread : Calm (readName name ref loc) := by
    refine (calm_isLexical ref).bind fun lexical => ?_
    split
    · refine Calm.get.bind fun s => ?_
      split
      · exact .pure
      · exact (calm_resolve name).bind fun _ => calm_environment.bind fun _ =>
          (calm_chain _ _ _).bind fun _ => calm_read _ _ _ _ _
    · exact (calm_scopeOf? ref).bind fun _ => calm_read _ _ _ _ _
  exact Calm.get.bind fun _ => hread.bind fun _ => (calm_recordAccess _ _ _ _ _).bind fun _ => .pure

theorem calm_declareField (name : String) (value object : Value) (loc : Location) :
    Calm (declareField name value object loc) := by
  refine (calm_scopeOf? object).bind fun scope => ?_
  cases scope with
  | some scope => exact (calm_assign _ _ _).bind fun _ => calm_fresh.bind fun _ => .pure
  | none => exact calm_fresh.bind fun _ => .pure

theorem calm_assignIdentifier (name : String) (value ref : Value) (loc : Location) :
    Calm (assignIdentifier name value ref loc) := by
  have hwrite : Calm (writeName name value ref loc) := by
    refine (calm_isLexical ref).bind fun lexical => ?_
    split
    · exact (calm_resolve name).bind fun _ => calm_environment.bind fun _ =>
        (calm_chain _ _ _).bind fun _ => calm_fresh.bind fun _ =>
        (calm_assign _ _ _).bind fun _ => .pure
    · exact calm_declareField _ _ _ _
  exact Calm.get.bind fun _ => hwrite.bind fun _ =>
    (calm_recordAccess _ _ _ _ _).bind fun _ => .pure

theorem calm_knownArgument (node : Node) (ref : Value) : Calm (knownArgument node ref) := by
  unfold knownArgument
  split
  · refine Calm.get.bind fun s => (calm_isLexical ref).bind fun lexical => ?_
    split
    · split
      · exact .pure
      · split <;> exact .pure
    · split <;> exact .pure
  · exact .pure

theorem still_constant (s : Compilation) (kind : TypeKind) (literal : Literal) :
    Still s { s with scopes := (s.scopes.constant kind literal).2 } := by
  unfold ScopeTable.constant
  dsimp only
  split <;> exact .of_kinds rfl (fun _ => rfl) rfl

theorem still_literalScope (s : Compilation) (kind : TypeKind) :
    Still s { s with scopes := (s.scopes.literalScope kind).2.2 } := by
  unfold ScopeTable.literalScope
  split
  · exact .refl s
  · exact (Still.create s .literal).trans (.of_kinds rfl (fun _ => rfl) rfl)

theorem calm_constant (kind : TypeKind) (literal : Literal) (loc : Location) :
    Calm (constant kind literal loc) := by
  refine (Calm.modifyGet fun s => still_constant s kind literal).bind fun c =>
    (Calm.modifyGet fun s => still_literalScope s kind).bind fun created => ?_
  dsimp only
  split
  · exact (calm_report _).bind fun _ => .pure
  · exact .pure

theorem calm_literal (source : LiteralSource) (loc : Location) : Calm (literal source loc) := by
  unfold literal
  split
  · exact calm_constant _ _ _
  split
  · split
    · exact .pure
    · exact calm_constant _ _ _
    · exact calm_constant _ _ _
    · exact calm_constant _ _ _
    · exact .fail
  · split
    · exact calm_constant _ _ _
    · exact .fail

theorem calm_load (place : Place) : Calm (load place) := by
  unfold load
  split
  · exact (calm_scopeOf? _).bind fun _ => calm_read _ _ _ _ _
  · exact calm_fresh.bind fun _ => .pure

theorem calm_store (place : Place) (value : Value) : Calm (store place value) := by
  unfold store
  split
  · exact calm_declareField _ _ _ _
  · exact calm_fresh.bind fun _ => .pure

theorem calm_modifyPlace (place : Place) {combine : Value → Lower Lowered}
    (h : ∀ old, Calm (combine old)) : Calm (modifyPlace place combine) :=
  (calm_load place).bind fun _ => (h _).bind fun _ => (calm_store _ _).bind fun _ => .pure

theorem calm_assignTarget (target : Node) (value ref : Value) :
    Calm (assignTarget target value ref) := by
  unfold assignTarget
  split
  · exact calm_assignIdentifier _ _ _ _
  · exact .fail
  · exact (calm_passOver _ _ _).bind fun _ => .pure

theorem calm_declareTarget (target : Node) (value ref : Value) :
    Calm (declareTarget target value ref) := by
  unfold declareTarget
  split
  · exact calm_declareField _ _ _ _
  · exact (calm_passOver _ _ _).bind fun _ => .pure

theorem calm_compoundStep (loc : Location) (operator : String) (right old : Value) :
    Calm (compoundStep loc operator right old) := calm_fresh.bind fun _ => .pure

theorem calm_updateStep (loc : Location) (operator : String) (old : Value) :
    Calm (updateStep loc operator old) :=
  (calm_constant _ _ _).bind fun _ => calm_fresh.bind fun _ => .pure

theorem calm_callOf (loc : Location) (callee : Value) (arguments : List Value) :
    Calm (callOf loc callee arguments) := by
  refine calm_environment.bind fun _ => calm_fresh.bind fun _ => ?_
  dsimp only
  split
  · exact Calm.require.bind fun _ => Calm.require.bind fun _ => Calm.get.bind fun _ =>
      Calm.require.bind fun _ => .pure
  · exact .pure

theorem calm_addClosure (id : Id) (link : FunctionLink) : Calm (addClosure id link) :=
  calm_modifyFrame _

theorem calm_nestedName (id : Id) : Calm (nestedName id) := calm_functionName.bind fun _ => .pure

theorem calm_bindParameters (scope : Id) (ps : List Parameter) :
    Calm (bindParameters scope ps) := by
  induction ps with
  | nil => exact .pure
  | cons p rest ih =>
    unfold bindParameters
    split
    · exact (calm_assign _ _ _).bind fun _ => calm_fresh.bind fun _ =>
        (calm_append _).bind fun _ => ih
    · exact ih

theorem calm_finishFunction (loc : Location) (outer : Frame) :
    Calm (finishFunction loc outer) := by
  have hrest : Calm (do
      let position := (← get).functions.length
      modify fun s =>
        let finished : Function := {
          file := s.file
          definition := s.frame.definition
          parameters := s.frame.parameters
          blocks := s.frame.blocks.reverse
          closures := s.frame.closures }
        { s with functions := s.functions ++ [finished], frame := outer }
      return position : Lower Nat) := by
    refine Calm.get.bind fun _ => .bind (.modify fun s => ?_) fun _ => .pure
    exact .of_kinds rfl (fun _ => rfl) rfl
  refine calm_currentBlock.bind fun last => ?_
  dsimp only
  split
  · exact (calm_append _).bind fun _ => hrest
  · exact hrest

end Lower

/-- What was started stays on record, also if the step fails. -/
def Records (step : Lower α) : Prop := ∀ s, s.entries ⊆ (stateOf (step s)).entries

theorem stateOf_within (context : String) (step : Lower α) (s : Compilation) :
    stateOf (step.within context s) = stateOf (step s) := by
  unfold Lower.within
  cases step s <;> rfl

namespace Records

protected theorem bind {x : Lower α} {f : α → Lower β} (hx : Records x)
    (hf : ∀ a, Records (f a)) : Records (x >>= f) :=
  stateOf_bind (R := fun s s' => s.entries ⊆ s'.entries) List.Subset.trans hx hf

theorem within {context : String} {step : Lower α} (h : Records step) :
    Records (step.within context) := fun s => stateOf_within context step s ▸ h s

end Records

/-- No task is started. -/
def Silent (step : Lower α) : Prop := ∀ s, (stateOf (step s)).entries = s.entries

theorem Calm.silent {step : Lower α} (h : Calm step) : Silent step := fun s => (h s).entries

theorem Silent.records {step : Lower α} (h : Silent step) : Records step :=
  fun s => (h s).symm ▸ List.Subset.refl _

protected theorem Silent.bind {x : Lower α} {f : α → Lower β} (hx : Silent x)
    (hf : ∀ a, Silent (f a)) : Silent (x >>= f) :=
  stateOf_bind (R := fun s s' => s'.entries = s.entries) (fun h h' => h'.trans h) hx hf

namespace Lower

theorem silent_pushScope (x : Id) (kind : ScopeKind) : Silent (pushScope x kind) := fun _ => rfl

theorem silent_popScope : Silent popScope := by
  refine Calm.get.silent.bind fun s => ?_
  split
  · exact Silent.bind (fun _ => rfl) fun _ => Calm.get.silent.bind fun _ => (calm_report _).silent
  · exact Calm.pure.silent

theorem silent_enterBlock (loc : Location) (parent : Id) : Silent (enterBlock loc parent) :=
  (calm_createScope _).silent.bind fun _ => (silent_pushScope _ _).bind fun _ =>
    (calm_branchToNext _).silent.bind fun _ => (calm_startBlock _ _).silent.bind fun _ =>
    calm_fresh.silent.bind fun _ => (calm_append _).silent

theorem silent_leaveBlock (loc : Location) : Silent (leaveBlock loc) := by
  refine silent_popScope.bind fun _ => calm_currentBlock.silent.bind fun last => ?_
  split
  · exact (calm_branchToNext _).silent.bind fun _ => calm_currentScope.silent.bind fun _ =>
      (calm_startBlock _ _).silent
  · exact Calm.pure.silent

theorem silent_enterFunction (definition : FunctionDefinition) (params : List Node)
    (loc : Location) (before : List Block) :
    Silent (enterFunction definition params loc before) := by
  intro s
  rw [enterFunction_eq]
  rfl

end Lower

structure Balanced (step : Lower α) : Prop where
  level : ∀ ⦃s a s'⦄, step s = .ok a s' → Level s s'
  records : Records step

theorem Calm.balanced {step : Lower α} (h : Calm step) : Balanced step where
  level s a s' hstep := by
    have hs := h s
    rw [hstep] at hs
    exact hs.toLevel
  records := h.silent.records

namespace Balanced

protected theorem bind {x : Lower α} {f : α → Lower β} (hx : Balanced x)
    (hf : ∀ a, Balanced (f a)) : Balanced (x >>= f) where
  level s b s' h := by
    obtain ⟨a, s₁, ha, hb⟩ := Lower.bind_eq_ok.mp h
    exact (hx.level ha).trans ((hf a).level hb)
  records := hx.records.bind fun a => (hf a).records

protected theorem pure {a : α} : Balanced (pure a) := Calm.pure.balanced

theorem fail {context : List String} {cause : Cause} :
    Balanced (Lower.fail context cause : Lower α) := Calm.fail.balanced

theorem within {context : String} {step : Lower α} (h : Balanced step) :
    Balanced (step.within context) :=
  ⟨fun _ _ _ hstep => h.level (Lower.within_eq_ok.mp hstep), h.records.within⟩

theorem guarded {c : Prop} [Decidable c] {context : List String} {cause : Cause}
    {rest : Lower α} (h : Balanced rest) :
    Balanced (if c then Lower.fail context cause >>= fun _ : PUnit => rest else rest) := by
  split
  · exact Balanced.fail.bind fun _ => h
  · exact h

theorem map {f : α → β} {step : Lower α} (h : Balanced step) : Balanced (f <$> step) := by
  rw [map_eq_pure_bind]
  exact h.bind fun _ => .pure

end Balanced

/-- The scope was entered last. -/
structure Above (s : Compilation) (x : Id) (s' : Compilation) : Prop where
  stack : s'.scopes.stack = x :: s.scopes.stack
  scopes : ∀ y, (s.scopes.kind? y).isSome → (s'.scopes.kind? y).isSome
  there : (s'.scopes.kind? x).isSome

theorem Above.level (h : Above s x s₁) (h' : Level s₁ s₂) : Above s x s₂ :=
  ⟨h'.stack.trans h.stack, fun y hy => h'.scopes y (h.scopes y hy), h'.scopes x h.there⟩

namespace Lower

theorem balanced_enter (task : Task) : Balanced (enter task) where
  level s u s' h := by
    obtain rfl := enter_eq_ok.mp h
    exact ⟨rfl, fun _ => id⟩
  records _ _ := List.mem_cons_of_mem _

theorem above_push {kind : ScopeKind} {u : Unit} (hc : createScope kind s = .ok x s₁)
    (hp : pushScope x kind s₁ = .ok u s') : Above s x s' := by
  have hs := (calm_createScope kind).balanced.level hc
  obtain ⟨rfl, rfl⟩ := createScope_eq_ok.mp hc
  obtain rfl := pushScope_eq_ok.mp hp
  refine ⟨rfl, fun y hy => ?_, ?_⟩
  · exact (ScopeTable.kind?_push _ _ y).symm ▸ hs.scopes y hy
  · show ((ScopeTable.push _ _).kind? _).isSome
    rw [ScopeTable.kind?_push, ScopeTable.kind?_create, if_pos rfl]
    rfl

theorem level_popScope {u : Unit} (h : Above s x s₁) (hp : popScope s₁ = .ok u s') :
    Level s s' := by
  obtain ⟨kind, hk⟩ := Option.isSome_iff_exists.mp h.there
  obtain rfl := popScope_eq_ok hp h.stack hk
  exact ⟨congrArg List.tail h.stack, h.scopes⟩

theorem balanced_scoped {kind : ScopeKind} {step : Id → Lower α} {f : Id → α → β}
    (h : ∀ x, Balanced (step x)) :
    Balanced (do
      let x ← createScope kind
      pushScope x kind
      let a ← step x
      popScope
      return f x a) := by
  refine ⟨fun s b s' hs => ?_, ?_⟩
  · simp only [bind_eq_ok, pure_eq_ok] at hs
    obtain ⟨x, s₁, hc, _, s₂, hp, a, s₃, ha, _, _, hpop, -, rfl⟩ := hs
    exact level_popScope ((above_push hc hp).level ((h x).level ha)) hpop
  · exact (calm_createScope kind).silent.records.bind fun x =>
      (silent_pushScope x kind).records.bind fun _ => (h x).records.bind fun _ =>
      silent_popScope.records.bind fun _ => Calm.pure.silent.records

theorem above_enterBlock {loc : Location} {parent : Id} {u : Unit}
    (h : enterBlock loc parent s = .ok u s') : ∃ x, Above s x s' := by
  simp only [enterBlock, bind_eq_ok] at h
  obtain ⟨x, s₁, hc, _, s₂, hp, _, s₃, hbranch, _, s₄, hstart, id, s₅, hfresh, happend⟩ := h
  have hrest := ((calm_branchToNext loc).balanced.level hbranch).trans
    ((calm_startBlock x loc).balanced.level hstart)
  have hlast := (calm_fresh.balanced.level hfresh).trans ((calm_append _).balanced.level happend)
  exact ⟨x, (above_push hc hp).level (hrest.trans hlast)⟩

theorem level_leaveBlock {loc : Location} {u : Unit} (h : Above s x s₁)
    (hl : leaveBlock loc s₁ = .ok u s') : Level s s' := by
  obtain ⟨_, s₂, hpop, hl⟩ := bind_eq_ok.mp hl
  obtain ⟨last, s₃, hlast, hl⟩ := bind_eq_ok.mp hl
  have hback := (level_popScope h hpop).trans (calm_currentBlock.balanced.level hlast)
  refine hback.trans ?_
  split at hl
  · have hopen : Calm (branchToNext loc >>= fun _ => currentScope >>= fun scope =>
        startBlock scope loc) :=
      (calm_branchToNext loc).bind fun _ => calm_currentScope.bind fun _ => calm_startBlock _ _
    exact hopen.balanced.level hl
  · exact Calm.pure.balanced.level hl

theorem above_enterFunction {definition : FunctionDefinition} {params : List Node}
    {loc : Location} {before : List Block} {r : Id × List Parameter}
    (h : enterFunction definition params loc before s = .ok r s') : Above s r.1 s' := by
  rw [enterFunction_eq] at h
  cases h
  have hnew := Compilation.enters_enter s definition params loc (leadingIn loc before)
  refine ⟨hnew.stack, fun y hy => ?_, ?_⟩
  · rw [hnew.kinds]
    split
    · rfl
    · exact hy
  · rw [hnew.new]
    rfl

theorem balanced_function (name : String) (params : List Node) (statements : Nat) (loc : Location)
    (before : List Block) {body : Lower Unit} (hbody : Balanced body) :
    Balanced (function name params statements loc before body) where
  level s link s' h := by
    simp only [function, bind_eq_ok, get_eq_ok, within_eq_ok, pure_eq_ok] at h
    obtain ⟨_, s₁, hreport, _, _, ⟨rfl, rfl⟩, _, _, ⟨rfl, rfl⟩, r, s₂, henter, _, s₃, hbind, _, s₄,
      hrun, position, s₅, hfinish, _, _, hpop, -, rfl⟩ := h
    have habove := (((above_enterFunction henter).level
      ((calm_bindParameters _ _).balanced.level hbind)).level (hbody.level hrun)).level
      ((calm_finishFunction _ _).balanced.level hfinish)
    exact ((calm_report _).balanced.level hreport).trans (level_popScope habove hpop)
  records :=
    (calm_report _).silent.records.bind fun _ => Calm.get.silent.records.bind fun _ =>
      Calm.get.silent.records.bind fun _ => (silent_enterFunction _ _ _ _).records.bind fun _ =>
      (calm_bindParameters _ _).silent.records.bind fun _ => hbody.records.within.bind fun _ =>
      (calm_finishFunction _ _).silent.records.bind fun _ => silent_popScope.records.bind fun _ =>
      Calm.pure.silent.records

theorem balanced_functionObject {params : List Node} {statements : Nat} {loc : Location}
    {body : Lower Unit} (hbody : Balanced body) :
    Balanced (functionObject params statements loc body) :=
  calm_fresh.balanced.bind fun id => (calm_nestedName id).balanced.bind fun name =>
    (balanced_function name params statements loc [] hbody).bind fun link =>
    (calm_addClosure id link).balanced.bind fun _ => .pure

theorem balanced_modifyTarget {target : Node} {read : Lower Lowered} {ref : Value}
    {combine : Value → Lower Lowered} (hread : Balanced read) (hc : ∀ old, Calm (combine old)) :
    Balanced (modifyTarget target read ref combine) :=
  hread.bind fun old => (hc old.value).balanced.bind fun _ => (balanced_enter _).bind fun _ =>
    (calm_assignTarget _ _ _).balanced.bind fun _ => .pure

theorem balanced_placeOf {loc : Location} {object property : Node} {computed : Bool}
    {lowerObject lowerProperty : Lower Lowered} (ho : Balanced lowerObject)
    (hp : Balanced lowerProperty) :
    Balanced (placeOf loc object property computed lowerObject lowerProperty) := by
  refine Balanced.guarded (ho.within.bind fun base => ?_)
  split
  · exact .pure
  · exact hp.within.bind fun _ => .pure

theorem balanced_operation {loc : Location} {definition : FunctionDefinition}
    {operands : List (Lower Lowered)} (h : ∀ operand ∈ operands, Balanced operand) :
    Balanced (operation loc definition operands) := by
  have hrun : ∀ i, Balanced (operation.run definition i operands) := by
    induction operands with
    | nil => exact fun _ => .pure
    | cons operand rest ih =>
      intro i
      obtain ⟨hoperand, hrest⟩ := List.forall_mem_cons.mp h
      exact hoperand.within.bind fun _ => (ih hrest (i + 1)).bind fun _ => .pure
  exact (hrun 0).bind fun _ => calm_fresh.balanced.bind fun _ => .pure

theorem balanced_returnValue {loc : Location} {argument : Lower Lowered} (h : Balanced argument) :
    Balanced (returnValue loc argument) := h.within.bind fun _ => (calm_emit _ _).balanced

theorem balanced_shortBody {loc : Location} {type : String} {value : Id → Lower Lowered}
    (h : ∀ x, Balanced (value x)) :
    Balanced (do
      enter (.statement type)
      returnValue loc (value (← currentScope))) :=
  (balanced_enter _).bind fun _ => calm_currentScope.balanced.bind fun x =>
    balanced_returnValue (h x)

end Lower

structure Opens (task : Task) (step : Lower α) : Prop extends Balanced step where
  recorded : ∀ s, ⟨task, s.scopes, s.frame, s.functions⟩ ∈ (stateOf (step s)).entries

theorem Balanced.opens {task : Task} {step : Lower α} (h : Balanced step) :
    Opens task (do Lower.enter task; step) where
  toBalanced := (Lower.balanced_enter task).bind fun _ => h
  recorded s := h.records (s.logged (.entry ⟨task, s.scopes, s.frame, s.functions⟩))
    List.mem_cons_self

namespace Lower

mutual

theorem opens_expression (node : Node) (ref : Value) :
    Opens (.expression node.typeName ref) (expression node ref) := by
  rw [expression.eq_def]
  refine Balanced.opens ?_
  cases node with
  | identifier loc name => exact (calm_identifier name ref loc).balanced
  | literal loc source => exact (calm_literal source loc).balanced
  | assignment loc operator left right =>
    have hplace := balanced_memberPlace left ref
    refine Balanced.guarded ((opens_expression right ref).within.bind fun r => ?_)
    dsimp only
    split
    · refine (balanced_enter _).bind fun _ => hplace.bind fun place => ?_
      cases place with
      | none => exact (calm_assignTarget _ _ _).balanced.bind fun _ => .pure
      | some place => exact (calm_store _ _).balanced.bind fun _ => .pure
    · refine .bind (.within ((balanced_enter _).bind fun _ => hplace.bind fun place => ?_))
        fun m => .pure
      cases place with
      | none =>
        exact balanced_modifyTarget (opens_expression left ref).toBalanced (calm_compoundStep _ _ _)
      | some place => exact (calm_modifyPlace place (calm_compoundStep _ _ _)).balanced
  | call loc callee args optional =>
    exact Balanced.guarded ((balanced_arguments 0 args ref).bind fun _ =>
      (opens_expression callee ref).within.bind fun _ => (balanced_enter _).bind fun _ =>
      (calm_callOf _ _ _).balanced.bind fun _ => .pure)
  | member loc obj prop computed optional =>
    have hobject := (opens_expression obj ref).toBalanced
    exact (balanced_placeOf hobject (opens_expression prop ref).toBalanced).bind fun place =>
      (calm_load place).balanced.bind fun _ => .pure
  | chain loc inner => exact (opens_expression inner ref).toBalanced
  | object loc properties => exact balanced_scoped fun x => balanced_members properties (.ofScope x)
  | array loc items =>
    exact (calm_createScope _).balanced.bind fun x =>
      (balanced_elements 0 items (.ofScope x) ref).bind fun _ => .pure
  | functionExpression loc id params body =>
    cases body with
    | blockStatement loc' nodes => exact balanced_functionObject (balanced_statements nodes)
    | _ => exact .fail
  | arrowFunction loc params body short =>
    cases body with
    | missing => exact .fail
    | blockStatement loc' nodes => exact balanced_functionObject (balanced_statements nodes)
    | _ =>
      exact balanced_functionObject (balanced_shortBody fun x =>
        (opens_expression _ (.ofScope x)).toBalanced)
  | unary loc operator short argument =>
    exact balanced_operation (by simpa using (opens_expression argument ref).toBalanced)
  | binary loc operator left right | logical loc operator left right =>
    exact balanced_operation (by simpa using ⟨(opens_expression left ref).toBalanced,
      (opens_expression right ref).toBalanced⟩)
  | conditional loc test consequent alternate =>
    exact balanced_operation (by simpa using ⟨(opens_expression test ref).toBalanced,
      (opens_expression consequent ref).toBalanced, (opens_expression alternate ref).toBalanced⟩)
  | update loc operator prefixed argument =>
    refine Balanced.guarded (.bind (.within ((balanced_enter _).bind fun _ =>
      (balanced_memberPlace argument ref).bind fun place => ?_)) fun _ => .pure)
    cases place with
    | none =>
      exact balanced_modifyTarget (opens_expression argument ref).toBalanced (calm_updateStep _ _)
    | some place => exact (calm_modifyPlace place (calm_updateStep _ _)).balanced
  | missing => exact .fail
  | _ => exact (calm_passOver _ _ _).balanced.bind fun _ => .pure

theorem balanced_memberPlace (node : Node) (ref : Value) : Balanced (memberPlace node ref) := by
  rw [memberPlace.eq_def]
  cases node with
  | member loc obj prop computed optional =>
    have hobject := (opens_expression obj ref).toBalanced
    exact (balanced_placeOf hobject (opens_expression prop ref).toBalanced).map
  | _ => exact .pure

theorem balanced_arguments (i : Nat) (nodes : List Node) (ref : Value) :
    Balanced (arguments i nodes ref) := by
  cases nodes with
  | nil =>
    rw [arguments]
    exact .pure
  | cons node rest =>
    have hrest := balanced_arguments (i + 1) rest ref
    rw [arguments]
    refine (balanced_enter _).bind fun _ => (calm_knownArgument node ref).balanced.bind
      fun known => ?_
    cases known with
    | some value => exact hrest.bind fun _ => .pure
    | none => exact (opens_expression node ref).within.bind fun _ => hrest.bind fun _ => .pure

theorem balanced_members (nodes : List Node) (object : Value) :
    Balanced (members nodes object) := by
  cases nodes with
  | nil =>
    rw [members]
    exact .pure
  | cons node rest =>
    have hrest := balanced_members rest object
    rw [members.eq_def]
    cases node with
    | property loc key value kind computed method shorthand =>
      have hvalue := (opens_expression value object).toBalanced
      refine Balanced.guarded (Balanced.guarded ?_)
      dsimp only
      split
      · exact hvalue.within.bind fun _ => (calm_declareField _ _ _ _).balanced.bind fun _ =>
          hrest.bind fun _ => .pure
      · exact (opens_expression key object).within.bind fun _ => hvalue.within.bind fun _ =>
          calm_fresh.balanced.bind fun _ => hrest.bind fun _ => .pure
    | _ => exact (calm_passOver _ _ _).balanced.bind fun _ => hrest

theorem balanced_elements (i : Nat) (nodes : List Node) (array ref : Value) :
    Balanced (elements i nodes array ref) := by
  cases nodes with
  | nil =>
    rw [elements]
    exact .pure
  | cons node rest =>
    have hrest := balanced_elements (i + 1) rest array ref
    have helement := (opens_expression node ref).toBalanced
    rw [elements.eq_def]
    split
    · contradiction
    · rename_i heq
      cases heq
      exact hrest
    · rename_i heq
      cases heq
      exact helement.within.bind fun _ => (calm_declareField _ _ _ _).balanced.bind fun _ =>
        hrest.bind fun _ => .pure

theorem opens_statement (node : Node) :
    Opens (.statement node.typeName) (statement node) := by
  rw [statement.eq_def]
  refine Balanced.opens ?_
  cases node with
  | variableDeclaration loc kind declarations =>
    exact calm_currentScope.balanced.bind fun x =>
      (balanced_declarators declarations (.ofScope x)).bind fun _ => (calm_emit _ _).balanced
  | functionDeclaration loc id params body =>
    cases body with
    | blockStatement loc' nodes =>
      have hnodes := balanced_statements nodes
      cases id with
      | identifier loc'' name =>
        exact calm_currentScope.balanced.bind fun scope => (calm_declare _ _).balanced.bind fun _ =>
          calm_fresh.balanced.bind fun id => calm_functionName.balanced.bind fun enclosing =>
          (calm_nestedName id).balanced.bind fun nested =>
          (balanced_function _ params _ loc [] hnodes).bind fun link =>
          (calm_addClosure id link).balanced.bind fun _ => calm_fresh.balanced.bind fun write =>
          (calm_emit _ _).balanced.bind fun _ => (calm_assign _ _ _).balanced
      | _ => exact .fail
    | _ => cases id <;> exact .fail
  | returnStatement loc argument =>
    have hreturn : Balanced (currentScope >>= fun scope =>
        returnValue loc (expression argument (.ofScope scope))) :=
      calm_currentScope.balanced.bind fun x =>
        balanced_returnValue (opens_expression argument (.ofScope x)).toBalanced
    cases argument with
    | missing => exact (calm_emit _ _).balanced
    | _ => exact hreturn
  | expressionStatement loc e =>
    have hemit : Balanced (currentScope >>= fun scope => expression e (.ofScope scope) >>=
        fun lowered => emit loc lowered.code) :=
      calm_currentScope.balanced.bind fun x =>
        (opens_expression e (.ofScope x)).bind fun _ => (calm_emit _ _).balanced
    cases e with
    | missing => exact .fail
    | _ => exact hemit
  | blockStatement loc body =>
    have hbody := balanced_statements body
    refine calm_currentScope.balanced.bind fun parent => (calm_ensureOpen loc).balanced.bind
      fun _ => ⟨fun s u s' h => ?_, ?_⟩
    · simp only [bind_eq_ok] at h
      obtain ⟨_, s₁, henter, _, s₂, hstatements, hleave⟩ := h
      obtain ⟨x, habove⟩ := above_enterBlock henter
      exact level_leaveBlock (habove.level (hbody.level hstatements)) hleave
    · exact (silent_enterBlock loc parent).records.bind fun _ => hbody.records.bind fun _ =>
        (silent_leaveBlock loc).records
  | emptyStatement loc => exact .pure
  | missing => exact .fail
  | _ => exact (calm_passOver _ _ _).balanced

theorem balanced_statements (nodes : List Node) : Balanced (statements nodes) := by
  cases nodes with
  | nil =>
    rw [statements]
    exact .pure
  | cons node rest =>
    rw [statements]
    exact (opens_statement node).bind fun _ => balanced_statements rest

theorem balanced_declarators (nodes : List Node) (ref : Value) :
    Balanced (declarators nodes ref) := by
  cases nodes with
  | nil =>
    rw [declarators]
    exact .pure
  | cons node rest =>
    have hrest := balanced_declarators rest ref
    rw [declarators.eq_def]
    cases node with
    | variableDeclarator loc id init =>
      have hbound : ∀ e : Lowered, Balanced (declareTarget id e.value ref >>= fun write =>
          declarators rest ref >>= fun more => pure (e.code ++ write ++ more)) :=
        fun e => (calm_declareTarget _ _ _).balanced.bind fun _ => hrest.bind fun _ => .pure
      have hinit := (opens_expression init ref).toBalanced
      refine Balanced.guarded ?_
      split
      · exact hbound _
      · exact hinit.within.bind hbound
    | _ => exact .fail

end

end Lower

end ScopeIR
