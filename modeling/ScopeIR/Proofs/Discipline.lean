import ScopeIR.Proofs.CallShapes
import ScopeIR.Proofs.Documents
import ScopeIR.Proofs.Refusals
import ScopeIR.Proofs.StackBalance

/-! The discipline of scopes. Whenever a statement starts, an environment is on top of the stack,
and names are always read from the scope on top; blocks, environments and the functions of function
objects are there when they are looked for. -/
namespace ScopeIR

variable {α β : Type} {s s' : Compilation} {code : List Instruction} {ref : Value} {task : Task}

def Task.isStatement : Task → Bool
  | .statement _ => true
  | .expression .. | .assign _ | .modify _ | .known _ | .call _ => false

def Task.ref? : Task → Option Value
  | .expression _ ref | .assign ref | .modify ref | .known ref => some ref
  | .statement _ | .call _ => none

/-- Function objects have a function, which has the implicit parameter. -/
def Value.Callable (functions : List Function) : Value → Prop
  | .func _ link => ∃ definition position f, link = some ⟨definition, some position⟩ ∧
      functions[position]? = some f ∧ f.parameters ≠ []
  | .ref _ | .const _ | .scope .. => True

/-- What a task relies on in the state that it starts from. -/
structure Entry.Disciplined (e : Entry) : Prop where
  top : ∃ scope rest, e.scopes.stack = scope.id :: rest ∧ e.scopes.scope? scope.id = some scope ∧
    (e.task.isStatement → scope.kind.isEnvironment) ∧ ∀ ref ∈ e.task.ref?, ref = scope.value
  environment : ∃ scope ∈ e.scopes.environments, e.scopes.environment? = some scope
  nested : e.scopes.Nested
  blocks : e.frame.blocks ≠ []
  parameters : e.frame.parameters ≠ []
  known : ∀ x v, e.scopes.Knows x v → v.Callable e.functions
  callee : ∀ v, e.task = .call v → v.Callable e.functions

theorem Entry.Disciplined.isLexical {e : Entry} (h : e.Disciplined) (hr : ref ∈ e.task.ref?)
    (hs : s.scopes = e.scopes) : Lower.isLexical ref s = .ok true s := by
  obtain ⟨scope, rest, hstack, hscope, -, href⟩ := h.top
  have hcurrent := ScopeTable.current?_of_stack hstack hscope
  rw [← hs] at hscope hcurrent
  simp only [Lower.isLexical, Lower.scopeOf?, Lower.bind_eq_ok, Lower.get_eq_ok, Lower.pure_eq_ok]
  refine ⟨_, s, ⟨s, s, ⟨rfl, rfl⟩, rfl, rfl⟩, s, s, ⟨rfl, rfl⟩, ?_, rfl⟩
  rw [href ref hr, hcurrent]
  simp [Scope.value, Value.ofScope, ScopeTable.scopeOf?, hscope]

theorem Value.Proper.callable {file : String} {functions : List Function} {v : Value}
    (h : v.Proper file functions) (hf : ∀ f ∈ functions, f.parameters ≠ []) :
    v.Callable functions := by
  cases v with
  | func id link =>
    obtain ⟨name, position, f, rfl, hposition, -⟩ := h
    exact ⟨_, position, f, rfl, hposition, hf f (List.mem_of_getElem? hposition)⟩
  | ref | const | scope => trivial

/-- Lowered functions have the implicit parameter, and environments are entered once. -/
structure Furnished (s : Compilation) : Prop where
  functions : ∀ f ∈ s.functions, f.parameters ≠ []
  nested : s.scopes.Nested

theorem Run.furnished {loose : Prop} {d d' : Draft} {w : Work} (h : Run loose d w d')
    (hr : Ready d) (hf : Furnished d.state) : Furnished d'.state :=
  ⟨h.parameters_ne_nil hf.functions, hf.nested.of_chain (h.extends.chain hr)⟩

structure Poised (ref : Value) (d : Draft) : Prop extends Sited ref d where
  furnished : Furnished d.state

structure Stationed (d : Draft) : Prop extends InBody d where
  furnished : Furnished d.state

theorem Run.poised {loose : Prop} {d d' : Draft} {w : Work} (h : Run loose d w d')
    (hp : Poised ref d) : Poised ref d' :=
  ⟨h.sited hp.toSited, h.furnished hp.ready hp.furnished⟩

theorem Run.stationed {loose : Prop} {d d' : Draft} {w : Work} (h : Run loose d w d')
    (hh : Stationed d) : Stationed d' :=
  ⟨h.inBody hh.toInBody, h.furnished hh.ready hh.furnished⟩

theorem Ready.disciplined (hr : Ready ⟨s, code⟩) (hf : Furnished s) {scope : Scope} {rest : List Id}
    (hstack : s.scopes.stack = scope.id :: rest) (hscope : s.scopes.scope? scope.id = some scope)
    (henv : task.isStatement → scope.kind.isEnvironment)
    (href : ∀ ref ∈ task.ref?, ref = scope.value)
    (hc : ∀ v, task = .call v → v.Callable s.functions) :
    Entry.Disciplined ⟨task, s.scopes, s.frame, s.functions⟩ where
  top := ⟨scope, rest, hstack, hscope, henv, href⟩
  environment := by
    obtain ⟨x, kind, others, hchain, -⟩ := hr.environment
    obtain ⟨innermost, hinnermost, -⟩ := ScopeTable.environment?_of_chain hchain
    exact ⟨innermost, List.mem_of_mem_head? hinnermost, hinnermost⟩
  nested := hf.nested
  blocks := hr.blocks
  parameters := hr.parameters
  known x v hv := (hr.tame x v hv).proper.callable hf.functions
  callee := hc

theorem Poised.disciplined (hp : Poised ref ⟨s, code⟩) (hstmt : task.isStatement = false)
    (href : ∀ r ∈ task.ref?, r = ref) (hc : ∀ v, task = .call v → v.Callable s.functions) :
    Entry.Disciplined ⟨task, s.scopes, s.frame, s.functions⟩ := by
  obtain ⟨x, rest, hstack, hx⟩ := hp.top
  obtain ⟨kind, hk⟩ := hp.ready.sound.stack x (hstack ▸ List.mem_cons_self)
  obtain ⟨scope, hscope, -⟩ := ScopeTable.scope?_of_kind? hk
  cases ScopeTable.scope?_id hscope
  refine hp.ready.disciplined hp.furnished hstack hscope ?_ (fun r hr => ?_) hc
  · simp [hstmt]
  · rw [href r hr, hx]
    rfl

theorem Stationed.disciplined (hh : Stationed ⟨s, code⟩) (type : String) :
    Entry.Disciplined ⟨.statement type, s.scopes, s.frame, s.functions⟩ := by
  obtain ⟨x, kind, others, rest, hstack, hchain⟩ := hh.top
  obtain ⟨scope, hscope, rfl, -⟩ := ScopeTable.environment?_of_chain hchain
  have hmem : scope ∈ s.scopes.environments := List.mem_of_mem_head? hscope
  refine hh.ready.disciplined hh.furnished hstack (ScopeTable.scope?_of_mem_environments hmem)
    (fun _ => ?_) (by simp [Task.ref?]) (by simp)
  exact (List.mem_filter.mp hmem).2

def Clean (step : Lower α) (s : Compilation) : Prop :=
  ∀ e ∈ (stateOf (step s)).entries, e ∈ s.entries ∨ e.Disciplined

namespace Clean

protected theorem bind {x : Lower α} {f : α → Lower β} (hx : Clean x s)
    (hf : ∀ a s', x s = .ok a s' → Clean (f a) s') : Clean (x >>= f) s := by
  unfold Clean at hx
  intro e he
  have he : e ∈ (stateOf (EStateM.bind x f s)).entries := he
  unfold EStateM.bind at he
  cases h : x s with
  | ok a s' =>
    rw [h] at he hx
    exact (hf a s' h e he).elim (hx e) .inr
  | error failure s' =>
    rw [h] at he hx
    exact hx e he

protected theorem pure {a : α} : Clean (pure a) s := fun _ => .inl

theorem fail {context : List String} {cause : Cause} :
    Clean (Lower.fail context cause : Lower α) s := fun _ => .inl

theorem within {step : Lower α} {context : String} (h : Clean step s) :
    Clean (step.within context) s := fun e he => h e (stateOf_within context step s ▸ he)

theorem map {step : Lower α} {f : α → β} (h : Clean step s) : Clean (f <$> step) s := by
  rw [map_eq_pure_bind]
  exact h.bind fun _ _ _ => .pure

theorem guarded {c : Prop} [Decidable c] {context : List String} {cause : Cause}
    {rest : Lower α} (h : Clean rest s) :
    Clean (if c then Lower.fail context cause >>= fun _ : PUnit => rest else rest) s := by
  split
  · exact Clean.fail.bind fun _ _ hfail => absurd hfail (by simp)
  · exact h

theorem andThen {x : Lower α} {f : α → Lower β} {a : α} (hx : x s = .ok a s')
    (hs : s'.entries = s.entries) (hf : Clean (f a) s') : Clean (x >>= f) s := by
  refine Clean.bind (fun e he => ?_) fun b s₁ h => ?_
  · rw [hx] at he
    exact .inl (hs ▸ he)
  · cases hx.symm.trans h
    exact hf

end Clean

theorem Silent.clean {step : Lower α} (h : Silent step) : Clean step s :=
  fun _ he => .inl (h s ▸ he)

theorem Calm.clean {step : Lower α} (h : Calm step) : Clean step s := h.silent.clean

theorem Lower.clean_enter (h : Entry.Disciplined ⟨task, s.scopes, s.frame, s.functions⟩) :
    Clean (enter task) s := by
  intro e he
  rcases List.mem_cons.mp he with rfl | he
  · exact .inr h
  · exact .inl he

def Tidy (ref : Value) (step : Lower α) : Prop :=
  ∀ ⦃s : Compilation⦄ ⦃code : List Instruction⦄, Poised ref ⟨s, code⟩ → Clean step s

def Orderly (step : Lower Unit) : Prop := ∀ ⦃s : Compilation⦄, Stationed ⟨s, []⟩ → Clean step s

theorem Calm.tidy {step : Lower α} (h : Calm step) : Tidy ref step := fun _ _ _ => h.clean

theorem Calm.orderly {step : Lower Unit} (h : Calm step) : Orderly step := fun _ _ => h.clean

theorem Poised.enter (hp : Poised ref ⟨s, code⟩) {u : Unit} (h : Lower.enter task s = .ok u s') :
    Poised ref ⟨s', code⟩ := by
  have hstart : Run True _ _ _ := Lower.enter_run code h
  exact hstart.poised hp

theorem Poised.clean_enter (hp : Poised ref ⟨s, code⟩) (href : task.ref? = some ref) :
    Clean (Lower.enter task) s := by
  have hstmt : task.isStatement = false := by
    cases task with
    | statement => cases href
    | _ => rfl
  refine Lower.clean_enter (hp.disciplined hstmt (fun r hr => ?_) fun v hv => ?_)
  · exact Option.some.inj (hr.symm.trans href)
  · subst hv
    cases href

theorem Tidy.entered {step : Lower α} (h : Tidy ref step) (href : task.ref? = some ref) :
    Tidy ref (do Lower.enter task; step) :=
  fun _ _ hp => (hp.clean_enter href).bind fun _ _ henter => h (hp.enter henter)

theorem Orderly.entered {step : Lower Unit} (h : Orderly step) (type : String) :
    Orderly (do Lower.enter (.statement type); step) := by
  intro s hh
  refine (Lower.clean_enter (hh.disciplined type)).bind fun _ s₁ henter => ?_
  have hstart : Run True _ _ _ := Lower.enter_run [] henter
  exact h (hstart.stationed hh)

namespace Lower

theorem clean_function {name : String} {params : List Node} {statements : Nat} {loc : Location}
    {before : List Block} {body : Lower Unit}
    (hr : Ready ⟨(s.logged (.event (.processFunction name params.length statements))).enter
      (.user name s.file) params loc (leadingIn loc before), []⟩)
    (hf : Furnished ((s.logged (.event (.processFunction name params.length statements))).enter
      (.user name s.file) params loc (leadingIn loc before))) (hbody : Orderly body) :
    Clean (function name params statements loc before body) s := by
  refine (calm_report _).clean.bind fun _ s₁ hreport => ?_
  obtain rfl := report_eq_ok.mp hreport
  refine .andThen (a := s.logged _) rfl rfl (.andThen (a := s.logged _) rfl rfl ?_)
  refine (silent_enterFunction _ _ _ _).clean.bind fun r s₁ henter => ?_
  rw [enterFunction_eq] at henter
  cases henter
  refine (calm_bindParameters _ _).clean.bind fun _ s₁ hbind => ?_
  have hentry : Run True _ _ _ ∧ _ := entry_run hr (fun _ _ _ => trivial) hbind
  obtain ⟨hrun, hin⟩ := hentry
  have hstation : Stationed ⟨s₁, []⟩ := ⟨hin, hrun.furnished hr hf⟩
  refine (hbody hstation).within.bind fun _ _ _ => ?_
  exact (calm_finishFunction _ _).clean.bind fun _ _ _ => silent_popScope.clean.bind fun _ _ _ => .pure

theorem clean_nested {name : String} {params : List Node} {statements : Nat} {loc : Location}
    {body : Lower Unit} (hr : Ready ⟨s, code⟩) (hf : Furnished s) (hbody : Orderly body) :
    Clean (function name params statements loc [] body) s.spend := by
  have hreport : Run True ⟨s, code⟩ {} _ :=
    .report s code (.event (.processFunction name params.length statements))
  have hready := hreport.ready hr
  refine clean_function (hready.enter (.user name s.file) params loc) ⟨hf.functions, ?_⟩ hbody
  exact hf.nested.enters (Compilation.enters_spend _ (.user name s.file) params loc []) hready.sound rfl

theorem tidy_functionObject {params : List Node} {statements : Nat} {loc : Location}
    {body : Lower Unit} (hbody : Orderly body) :
    Tidy ref (functionObject params statements loc body) := by
  intro s code hp
  refine .andThen (fresh_eq s) rfl ((calm_nestedName _).clean.bind fun name s₁ hname => ?_)
  obtain ⟨_, _, ⟨rfl, rfl⟩, rfl, rfl⟩ : ∃ n t, _ ∧ _ := by
    simpa only [nestedName, bind_eq_ok, functionName_eq_ok, pure_eq_ok] using hname
  exact (clean_nested hp.ready hp.furnished hbody).bind fun link _ _ =>
    (calm_addClosure _ link).clean.bind fun _ _ _ => .pure

theorem poised_expression {node : Node} {e : Lowered} (hp : Poised ref ⟨s, code⟩)
    (h : expression node ref s = .ok e s') :
    Poised ref ⟨s', code ++ e.code⟩ ∧ Draft.Yields ⟨s', code ++ e.code⟩ e.value :=
  (evaluates_expression node ref hp.toSited h).imp_left fun hrun => hrun.poised hp

theorem clean_place {node : Node} {f : Option Place → Lower α} (hp : Poised ref ⟨s, code⟩)
    (hplace : Tidy ref (memberPlace node ref)) (hsome : ∀ place, Calm (f (some place)))
    (hnone : Clean (f none) s) : Clean (memberPlace node ref >>= f) s := by
  have hlocates : Locates True ref node _ := memberPlace_locates node ref fun _ => trivial
  refine (hplace hp).bind fun place s₁ h => ?_
  cases place with
  | some place => exact (hsome place).clean
  | none =>
    obtain ⟨-, rfl⟩ := (hlocates hp.toSited).2 h
    exact hnone

theorem clean_modifyTarget {node : Node} {combine : Value → Lower Lowered}
    (hp : Poised ref ⟨s, code⟩) (hread : Tidy ref (expression node ref))
    (hcalm : ∀ old, Calm (combine old)) (hc : Combines True ref ⟨s, code⟩ combine) :
    Clean (modifyTarget node (expression node ref) ref combine) s := by
  refine (hread hp).bind fun old s₁ hold => ?_
  obtain ⟨hrun, hy⟩ := evaluates_expression node ref hp.toSited hold
  have hp₁ := hrun.poised hp
  refine (hcalm _).clean.bind fun new s₂ hnew => ?_
  have hp₂ := (hc hrun.extends hp₁.toSited hy hnew).1.poised hp₁
  exact (hp₂.clean_enter rfl).bind fun _ _ _ => (calm_assignTarget _ _ _).clean.bind
    fun _ _ _ => .pure

theorem Tidy.asExpression {node : Node} {step : Lower Lowered} (h : Tidy ref step) :
    Tidy ref (do enter (.expression node.typeName ref); step) :=
  h.entered rfl

theorem tidy_assignment {loc : Location} {operator : String} {left right : Node}
    (hleft : Tidy ref (expression left ref)) (hplace : Tidy ref (memberPlace left ref))
    (hright : Tidy ref (expression right ref)) :
    Tidy ref (expression (.assignment loc operator left right) ref) := by
  rw [expression]
  refine Tidy.asExpression fun s code hp => .guarded ?_
  refine (hright hp).within.bind fun r s₁ hr => ?_
  obtain ⟨hp₁, hy⟩ := poised_expression hp (within_eq_ok.mp hr)
  dsimp only
  split
  · refine (hp₁.clean_enter rfl).bind fun _ s₂ henter => ?_
    refine clean_place (hp₁.enter henter) hplace (fun place => ?_) ?_
    · exact (calm_store _ _).bind fun _ => .pure
    · exact (calm_assignTarget _ _ _).clean.bind fun _ _ _ => .pure
  · refine Clean.bind (.within ?_) fun _ _ _ => .pure
    refine (hp₁.clean_enter rfl).bind fun _ s₂ henter => ?_
    have hstart : Run True _ _ _ := enter_run (code ++ r.code) henter
    have hy := hstart.extends.yields hp₁.ready hy
    have hp₂ := hstart.poised hp₁
    refine clean_place hp₂ hplace (fun place => ?_) ?_
    · exact calm_modifyPlace place (calm_compoundStep _ _ _)
    · exact clean_modifyTarget hp₂ hleft (calm_compoundStep _ _ _)
        (compoundStep_combines hp₂.ready hy)

theorem tidy_update {loc : Location} {operator : String} {prefixed : Bool} {argument : Node}
    (harg : Tidy ref (expression argument ref)) (hplace : Tidy ref (memberPlace argument ref)) :
    Tidy ref (expression (.update loc operator prefixed argument) ref) := by
  rw [expression]
  refine Tidy.asExpression fun s code hp => .guarded (Clean.bind (.within ?_) fun _ _ _ => .pure)
  refine (hp.clean_enter rfl).bind fun _ s₁ henter => ?_
  have hp₁ := hp.enter henter
  refine clean_place hp₁ hplace (fun place => ?_) ?_
  · exact calm_modifyPlace place (calm_updateStep _ _)
  · exact clean_modifyTarget hp₁ harg (calm_updateStep _ _) updateStep_combines

theorem tidy_call {loc : Location} {callee : Node} {args : List Node} {optional : Bool}
    (hargs : Tidy ref (arguments 0 args ref)) (hcallee : Tidy ref (expression callee ref)) :
    Tidy ref (expression (.call loc callee args optional) ref) := by
  rw [expression]
  refine Tidy.asExpression fun s code hp => .guarded ?_
  refine (hargs hp).bind fun passed s₁ ha => ?_
  have hpasses : Passes True ref _ _ := arguments_passes 0 args ref fun _ _ _ => trivial
  have hp₁ := (hpasses hp.toSited ha).1.poised hp
  refine (hcallee hp₁).within.bind fun target s₂ ht => ?_
  obtain ⟨hp₂, hy⟩ := poised_expression hp₁ (within_eq_ok.mp ht)
  refine (clean_enter (hp₂.disciplined rfl (by simp [Task.ref?]) fun v hv => ?_)).bind fun _ _ _ =>
    (calm_callOf _ _ _).clean.bind fun _ _ _ => .pure
  exact Task.call.inj hv ▸ hy.tame.proper.callable hp₂.furnished.functions

theorem tidy_placeOf {loc : Location} {obj prop : Node} {computed : Bool}
    (ho : Tidy ref (expression obj ref)) (hp : Tidy ref (expression prop ref)) :
    Tidy ref (placeOf loc obj prop computed (expression obj ref) (expression prop ref)) := by
  intro s code hs
  refine .guarded ((ho hs).within.bind fun base s₁ hbase => ?_)
  obtain ⟨hs₁, -⟩ := poised_expression hs (within_eq_ok.mp hbase)
  split
  · exact .pure
  · exact (hp hs₁).within.bind fun _ _ _ => .pure

def TidyFill (ref : Value) (x : Id) (step : Lower (List Instruction)) : Prop :=
  ∀ ⦃s : Compilation⦄ ⦃code : List Instruction⦄, Poised ref ⟨s, code⟩ → IsObject ⟨s, code⟩ x →
    Clean step s

theorem TidyFill.after {x : Id} {step : Lower (List Instruction)} (h : TidyFill ref x step)
    {w : Work} {code' : List Instruction} (hp : Poised ref ⟨s, code⟩) (hx : IsObject ⟨s, code⟩ x)
    (hrun : Run True ⟨s, code⟩ w ⟨s', code'⟩) : Clean step s' :=
  h (hrun.poised hp) (hx.run hrun hp.ready)

theorem tidy_array {loc : Location} {items : List Node}
    (h : ∀ x, TidyFill ref x (elements 0 items (.ofScope x) ref)) :
    Tidy ref (expression (.array loc items) ref) := by
  rw [expression]
  refine Tidy.asExpression fun s code hp => ?_
  have hrun : Run True _ _ _ := withObject_run s code loc
  have hcreate : createScope .object s = .ok (s.scopes.next : Id) (withObject s) := rfl
  refine .andThen hcreate rfl ?_
  exact (h _ (hrun.poised hp) (isObject_withObject s code loc)).bind fun _ _ _ => .pure

theorem tidy_object {loc : Location} {properties : List Node}
    (h : ∀ x, TidyFill (.ofScope x) x (members properties (.ofScope x))) :
    Tidy ref (expression (.object loc properties) ref) := by
  rw [expression]
  refine Tidy.asExpression fun s code hp => ?_
  have hrun : Run True _ _ _ := withObject_run s code loc
  have hcreate : createScope .object s = .ok (s.scopes.next : Id) (withObject s) := rfl
  have hpush : pushScope s.scopes.next .object (withObject s) = .ok () (Compilation.logged
    { withObject s with scopes := (withObject s).scopes.push s.scopes.next } _) := rfl
  refine .andThen hcreate rfl (.andThen hpush rfl ?_)
  obtain ⟨hsited, hx⟩ := sited_push (hrun.ready hp.ready) (isObject_withObject s code loc) _
  have hnested := (hrun.furnished hp.ready hp.furnished).nested.of_chain
    (ScopeTable.chain_push_object (isObject_withObject s code loc).2)
  refine (h _ ⟨hsited, hp.furnished.functions, hnested⟩ hx).bind fun _ _ _ => ?_
  exact silent_popScope.clean.bind fun _ _ _ => .pure

theorem tidy_operation {loc : Location} {definition : FunctionDefinition} {nodes : List Node}
    (h : ∀ node ∈ nodes, Tidy ref (expression node ref)) :
    Tidy ref (operation loc definition (nodes.map (expression · ref))) := by
  have hrun : ∀ i, Tidy ref (operation.run definition i (nodes.map (expression · ref))) := by
    induction nodes with
    | nil => exact fun _ _ _ _ => .pure
    | cons node rest ih =>
      intro i s code hp
      refine (h node List.mem_cons_self hp).within.bind fun e s₁ he => ?_
      obtain ⟨hp₁, -⟩ := poised_expression hp (within_eq_ok.mp he)
      have hrest := ih (fun n hn => h n (List.mem_cons_of_mem _ hn)) (i + 1) hp₁
      exact hrest.bind fun _ _ _ => .pure
  intro s code hp
  exact (hrun 0 hp).bind fun _ _ _ => calm_fresh.clean.bind fun _ _ _ => .pure

theorem tidy_arguments_cons {node : Node} {rest : List Node} (i : Nat)
    (hnode : Tidy ref (expression node ref)) (hrest : Tidy ref (arguments (i + 1) rest ref)) :
    Tidy ref (arguments i (node :: rest) ref) := by
  rw [arguments]
  refine Tidy.entered (fun s code hp => ?_) rfl
  refine (calm_knownArgument node ref).clean.bind fun known s₁ hknown => ?_
  obtain ⟨rfl, -⟩ := knownArgument_eq_ok hp.toSited hknown
  cases known with
  | some value => exact .andThen rfl rfl ((hrest hp).bind fun _ _ _ => .pure)
  | none =>
    refine (hnode hp).within.bind fun e s₁ he => ?_
    obtain ⟨hp₁, -⟩ := poised_expression hp (within_eq_ok.mp he)
    exact (hrest hp₁).bind fun _ _ _ => .pure

theorem tidyFill_property {loc : Location} {key value : Node} {kind : String}
    {computed method shorthand : Bool} {rest : List Node} {x : Id}
    (hkey : Tidy (.ofScope x) (expression key (.ofScope x)))
    (hvalue : Tidy (.ofScope x) (expression value (.ofScope x)))
    (hrest : TidyFill (.ofScope x) x (members rest (.ofScope x))) :
    TidyFill (.ofScope x) x
      (members (.property loc key value kind computed method shorthand :: rest) (.ofScope x)) := by
  rw [members]
  intro s code hp hx
  refine .guarded (.guarded ?_)
  cases key.staticName? computed with
  | some name =>
    refine (hvalue hp).within.bind fun v s₁ hv => ?_
    refine (calm_declareField _ _ _ _).clean.bind fun write s₂ hwrite => ?_
    have hrun := filled_declareField hp.toSited hx (within_eq_ok.mp hv) hwrite
    exact .andThen rfl rfl ((hrest.after hp hx hrun).bind fun _ _ _ => .pure)
  | none =>
    refine (hkey hp).within.bind fun k s₁ hk => ?_
    have hk := within_eq_ok.mp hk
    obtain ⟨hp₁, -⟩ := poised_expression hp hk
    refine (hvalue hp₁).within.bind fun v s₂ hv => ?_
    refine .andThen (fresh_eq s₂) rfl (.andThen rfl rfl ?_)
    obtain ⟨w, code', hrun⟩ := filled_setFieldDynamic loc hp.toSited hx hk (within_eq_ok.mp hv)
    exact (hrest.after hp hx hrun).bind fun _ _ _ => .pure

theorem tidyFill_passOver {x : Id} {step : Lower (List Instruction)} (h : TidyFill ref x step)
    (type : String) (loc : Location) :
    TidyFill ref x (do passOver .objectMember type loc; step) := by
  intro s code hp hx
  have hreport : Run True ⟨s, code⟩ {} _ :=
    .report s code (.event (.unsupported .objectMember type loc s.frame.definition.name))
  exact .andThen (a := ()) rfl rfl (h.after hp hx hreport)

theorem tidyFill_element {node : Node} {rest : List Node} {x : Id} (i : Nat)
    (hmissing : node ≠ .missing) (hnode : Tidy ref (expression node ref))
    (hrest : TidyFill ref x (elements (i + 1) rest (.ofScope x) ref)) :
    TidyFill ref x (elements i (node :: rest) (.ofScope x) ref) := by
  rw [elements]
  · intro s code hp hx
    refine (hnode hp).within.bind fun v s₁ hv => ?_
    refine (calm_declareField _ _ _ _).clean.bind fun write s₂ hwrite => ?_
    have hrun := filled_declareField hp.toSited hx (within_eq_ok.mp hv) hwrite
    exact (hrest.after hp hx hrun).bind fun _ _ _ => .pure
  · exact hmissing

def TidyScan (x : Id) (step : Lower (List Instruction)) : Prop :=
  ∀ ⦃s : Compilation⦄ ⦃code : List Instruction⦄, Poised (.ofScope x) ⟨s, code⟩ →
    x ∈ Draft.defined ⟨s, code⟩ → Clean step s

theorem TidyScan.declareTarget {x : Id} {id : Node} {e : Lowered} {w : Work} {s₁ : Compilation}
    {step : Lower (List Instruction)} (hrest : TidyScan x step)
    (hp : Poised (.ofScope x) ⟨s, code⟩) (hx : x ∈ Draft.defined ⟨s, code⟩)
    (hrun : Run True ⟨s, code⟩ w ⟨s₁, code ++ e.code⟩)
    (hy : Draft.Yields ⟨s₁, code ++ e.code⟩ e.value) :
    Clean (do
      let write ← declareTarget id e.value (.ofScope x)
      return e.code ++ write ++ (← step)) s₁ := by
  refine (calm_declareTarget _ _ _).clean.bind fun write s₂ hwrite => ?_
  have hstore : Run True _ _ _ := declareTarget_run (hrun.ready hp.ready)
    (hrun.extends.defined hp.ready.blocks hx) (fun _ => trivial) hy hwrite
  have hall := hrun.andThen hstore
  exact (hrest (hall.poised hp) (hall.extends.defined hp.ready.blocks hx)).bind fun _ _ _ => .pure

theorem tidyScan_declarator {loc : Location} {id init : Node} {rest : List Node} {x : Id}
    (hinit : Tidy (.ofScope x) (expression init (.ofScope x)))
    (hrest : TidyScan x (declarators rest (.ofScope x))) :
    TidyScan x (declarators (.variableDeclarator loc id init :: rest) (.ofScope x)) := by
  rw [declarators]
  intro s code hp hx
  refine .guarded ?_
  cases init.isMissing with
  | true =>
    refine .andThen (a := { value := .null }) rfl rfl (hrest.declareTarget (w := {}) hp hx ?_ ?_)
    · simpa using Run.refl _
    · exact Draft.yields_null _
  | false =>
    refine (hinit hp).within.bind fun e s₁ he => ?_
    obtain ⟨hrun, hy⟩ := evaluates_expression init (.ofScope x) hp.toSited (within_eq_ok.mp he)
    exact hrest.declareTarget hp hx hrun hy

theorem poised_currentScope {id : Id} (hh : Stationed ⟨s, []⟩) (h : currentScope s = .ok id s') :
    s = s' ∧ Poised (.ofScope id) ⟨s, []⟩ ∧ id ∈ Draft.defined ⟨s, []⟩ := by
  obtain ⟨heq, hs, hown, -⟩ := currentScope_eq_ok hh.toInBody h
  exact ⟨heq, ⟨hs, hh.furnished⟩, hown⟩

theorem orderly_variableDeclaration {loc : Location} {kind : String} {declarations : List Node}
    (h : ∀ x, TidyScan x (declarators declarations (.ofScope x))) :
    Orderly (statement (.variableDeclaration loc kind declarations)) := by
  rw [statement]
  refine Orderly.entered (fun s hh => ?_) _
  refine calm_currentScope.clean.bind fun scope s₁ hscope => ?_
  obtain ⟨rfl, hp, hown⟩ := poised_currentScope hh hscope
  exact (h scope hp hown).bind fun _ _ _ => (calm_emit _ _).clean

theorem orderly_expressionStatement {loc : Location} {node : Node}
    (h : ∀ x, Tidy (.ofScope x) (expression node (.ofScope x))) :
    Orderly (statement (.expressionStatement loc node)) := by
  by_cases hm : node = .missing
  · subst hm
    rw [statement]
    exact Orderly.entered (fun _ _ => .fail) _
  rw [statement]
  · refine Orderly.entered (fun s hh => ?_) _
    refine calm_currentScope.clean.bind fun scope s₁ hscope => ?_
    obtain ⟨rfl, hp, -⟩ := poised_currentScope hh hscope
    exact (h scope hp).bind fun _ _ _ => (calm_emit _ _).clean
  · exact hm

theorem orderly_returnValue {loc : Location} {node : Node}
    (h : ∀ x, Tidy (.ofScope x) (expression node (.ofScope x))) :
    Orderly (do returnValue loc (expression node (.ofScope (← currentScope)))) := by
  intro s hh
  refine calm_currentScope.clean.bind fun scope s₁ hscope => ?_
  obtain ⟨rfl, hp, -⟩ := poised_currentScope hh hscope
  exact (h scope hp).within.bind fun _ _ _ => (calm_emit _ _).clean

theorem orderly_returnStatement {loc : Location} {argument : Node}
    (h : ∀ x, Tidy (.ofScope x) (expression argument (.ofScope x))) :
    Orderly (statement (.returnStatement loc argument)) := by
  by_cases hm : argument = .missing
  · subst hm
    rw [statement]
    exact Orderly.entered (calm_emit _ _).orderly _
  rw [statement]
  · exact Orderly.entered (orderly_returnValue h) _
  · exact hm

theorem orderly_blockStatement {loc : Location} {body : List Node}
    (hbody : Orderly (statements body)) : Orderly (statement (.blockStatement loc body)) := by
  rw [statement]
  refine Orderly.entered (fun s hh => ?_) _
  refine calm_currentScope.clean.bind fun parent s₁ hparent => ?_
  obtain ⟨rfl, -⟩ := poised_currentScope hh hparent
  refine (calm_ensureOpen loc).clean.bind fun _ s₁ hopen => ?_
  have hrun : Run True ⟨s, []⟩ {} ⟨s₁, []⟩ := (ensureOpen_run hh.toInBody hopen).1
  have hh₁ := hrun.stationed hh
  obtain ⟨note, note', henter⟩ := enterBlock_eq (s := s₁) loc parent hh₁.ready.blocks
  refine (silent_enterBlock loc parent).clean.bind fun _ s₂ h => ?_
  cases henter.symm.trans h
  have hin : Stationed ⟨s₁.enterBlock loc parent, []⟩ :=
    ⟨.of_stack (hh₁.ready.enterBlock loc parent) rfl (s₁.enters_enterBlock loc parent).new rfl,
      hh₁.furnished.functions,
      hh₁.furnished.nested.enters (s₁.enters_enterBlock loc parent) hh₁.ready.sound rfl⟩
  have hlog : Run True ⟨s₁.enterBlock loc parent, []⟩ {} _ :=
    (Run.report _ [] note).trans (.report _ [] note')
  exact (hbody (hlog.stationed hin)).bind fun _ _ _ => (silent_leaveBlock loc).clean

theorem orderly_functionDeclaration {loc loc₁ loc₂ : Location} {name : String}
    {params body : List Node} (hbody : Orderly (statements body)) :
    Orderly (statement (.functionDeclaration loc (.identifier loc₁ name) params
      (.blockStatement loc₂ body))) := by
  rw [statement]
  refine Orderly.entered (fun s hh => ?_) _
  refine calm_currentScope.clean.bind fun scope s₁ hscope => ?_
  obtain ⟨rfl, -⟩ := poised_currentScope hh hscope
  refine (calm_declare scope name).clean.bind fun _ s₁ hdeclare => ?_
  have hrun : Run True ⟨s, []⟩ {} ⟨s₁, []⟩ := by
    cases hdeclare
    exact .declare s [] scope name
  have hh₁ := hrun.stationed hh
  refine .andThen (fresh_eq s₁) rfl (.andThen rfl rfl (.andThen rfl rfl ?_))
  have hf : Clean (function (s₁.nameFor (some name)) params body.length loc [] (statements body))
      s₁.spend := clean_nested hh₁.ready hh₁.furnished hbody
  exact hf.bind fun link _ _ => (calm_addClosure _ link).clean.bind fun _ _ _ =>
    calm_fresh.clean.bind fun _ _ _ => (calm_emit _ _).clean.bind fun _ _ _ =>
    (calm_assign _ _ _).clean

theorem tidy_arrow {loc : Location} {params : List Node} {body : Node} {short : Bool}
    (hmissing : body ≠ .missing) (hblock : ∀ loc nodes, body ≠ .blockStatement loc nodes)
    (hbody : ∀ x, Tidy (.ofScope x) (expression body (.ofScope x))) :
    Tidy ref (expression (.arrowFunction loc params body short) ref) := by
  rw [expression]
  · exact Tidy.asExpression (tidy_functionObject (Orderly.entered (orderly_returnValue hbody) _))
  · exact hmissing
  · exact hblock

mutual

theorem tidy_expression (node : Node) (ref : Value) : Tidy ref (expression node ref) := by
  cases node with
  | identifier loc name =>
    rw [expression]
    exact Tidy.asExpression (calm_identifier _ _ _).tidy
  | literal loc source =>
    rw [expression]
    exact Tidy.asExpression (calm_literal _ _).tidy
  | assignment loc operator left right =>
    exact tidy_assignment (tidy_expression left ref) (tidy_memberPlace left ref)
      (tidy_expression right ref)
  | call loc callee args optional =>
    exact tidy_call (tidy_arguments 0 args ref) (tidy_expression callee ref)
  | member loc obj prop computed optional =>
    have hobject := tidy_expression obj ref
    have hproperty := tidy_expression prop ref
    rw [expression]
    exact Tidy.asExpression fun _ _ hp => (tidy_placeOf hobject hproperty hp).bind
      fun place _ _ => (calm_load place).clean.bind fun _ _ _ => .pure
  | chain loc inner =>
    rw [expression]
    exact Tidy.asExpression (tidy_expression inner ref)
  | object loc properties => exact tidy_object fun x => tidyFill_members properties x
  | array loc items => exact tidy_array fun x => tidyFill_elements 0 items x ref
  | functionExpression loc id params body =>
    cases body with
    | blockStatement loc' nodes =>
      simp only [expression]
      exact Tidy.asExpression (tidy_functionObject (orderly_statements nodes))
    | _ =>
      simp only [expression]
      exact Tidy.asExpression Calm.fail.tidy
  | arrowFunction loc params body short =>
    cases body with
    | blockStatement loc' nodes =>
      simp only [expression]
      exact Tidy.asExpression (tidy_functionObject (orderly_statements nodes))
    | missing =>
      simp only [expression]
      exact Tidy.asExpression Calm.fail.tidy
    | _ => exact tidy_arrow (by simp) (by simp) fun x => tidy_expression _ (.ofScope x)
  | unary loc operator short argument =>
    have ho : ∀ node ∈ [argument], Tidy ref (expression node ref) := by
      simpa using tidy_expression argument ref
    rw [expression]
    exact Tidy.asExpression (tidy_operation ho)
  | binary loc operator left right | logical loc operator left right =>
    have ho : ∀ node ∈ [left, right], Tidy ref (expression node ref) := by
      simpa using ⟨tidy_expression left ref, tidy_expression right ref⟩
    rw [expression]
    exact Tidy.asExpression (tidy_operation ho)
  | conditional loc test consequent alternate =>
    have ho : ∀ node ∈ [test, consequent, alternate], Tidy ref (expression node ref) := by
      simpa using ⟨tidy_expression test ref, tidy_expression consequent ref,
        tidy_expression alternate ref⟩
    rw [expression]
    exact Tidy.asExpression (tidy_operation ho)
  | update loc operator prefixed argument =>
    exact tidy_update (tidy_expression argument ref) (tidy_memberPlace argument ref)
  | missing =>
    rw [expression]
    exact Tidy.asExpression Calm.fail.tidy
  | _ =>
    simp only [expression]
    exact Tidy.asExpression ((calm_passOver _ _ _).bind fun _ => .pure).tidy

theorem tidy_memberPlace (node : Node) (ref : Value) : Tidy ref (memberPlace node ref) := by
  cases node with
  | member loc obj prop computed optional =>
    rw [memberPlace]
    exact fun _ _ hp => (tidy_placeOf (tidy_expression obj ref) (tidy_expression prop ref) hp).map
  | _ =>
    simp only [memberPlace]
    exact Calm.pure.tidy

theorem tidy_arguments (i : Nat) (nodes : List Node) (ref : Value) :
    Tidy ref (arguments i nodes ref) := by
  cases nodes with
  | nil =>
    rw [arguments]
    exact Calm.pure.tidy
  | cons node rest =>
    exact tidy_arguments_cons i (tidy_expression node ref) (tidy_arguments (i + 1) rest ref)

theorem tidyFill_members (nodes : List Node) (x : Id) :
    TidyFill (.ofScope x) x (members nodes (.ofScope x)) := by
  cases nodes with
  | nil =>
    rw [members]
    exact fun _ _ _ _ => .pure
  | cons node rest =>
    cases node with
    | property loc key value kind computed method shorthand =>
      exact tidyFill_property (tidy_expression key (.ofScope x))
        (tidy_expression value (.ofScope x)) (tidyFill_members rest x)
    | _ =>
      simp only [members]
      exact tidyFill_passOver (tidyFill_members rest x) _ _

theorem tidyFill_elements (i : Nat) (nodes : List Node) (x : Id) (ref : Value) :
    TidyFill ref x (elements i nodes (.ofScope x) ref) := by
  cases nodes with
  | nil =>
    rw [elements]
    exact fun _ _ _ _ => .pure
  | cons node rest =>
    have hrest := tidyFill_elements (i + 1) rest x ref
    have hnode := tidy_expression node ref
    by_cases hm : node = .missing
    · subst hm
      simpa only [elements] using hrest
    · exact tidyFill_element i hm hnode hrest

theorem orderly_statement (node : Node) : Orderly (statement node) := by
  cases node with
  | variableDeclaration loc kind declarations =>
    exact orderly_variableDeclaration fun x => tidyScan_declarators declarations x
  | functionDeclaration loc id params body =>
    cases body with
    | blockStatement loc' nodes =>
      cases id with
      | identifier loc'' name => exact orderly_functionDeclaration (orderly_statements nodes)
      | _ =>
        rw [statement]
        · exact Orderly.entered Calm.fail.orderly _
        · simp
    | _ =>
      rw [statement]
      · exact Orderly.entered Calm.fail.orderly _
      · simp
  | returnStatement loc argument =>
    exact orderly_returnStatement fun x => tidy_expression argument (.ofScope x)
  | expressionStatement loc e =>
    exact orderly_expressionStatement fun x => tidy_expression e (.ofScope x)
  | blockStatement loc body => exact orderly_blockStatement (orderly_statements body)
  | emptyStatement loc =>
    rw [statement]
    exact Orderly.entered Calm.pure.orderly _
  | missing =>
    rw [statement]
    exact Orderly.entered Calm.fail.orderly _
  | _ =>
    simp only [statement]
    exact Orderly.entered (calm_passOver _ _ _).orderly _

theorem orderly_statements (nodes : List Node) : Orderly (statements nodes) := by
  cases nodes with
  | nil =>
    rw [statements]
    exact Calm.pure.orderly
  | cons node rest =>
    rw [statements]
    intro s hh
    refine (orderly_statement node hh).bind fun _ s₁ h => ?_
    have hexec : Executes True _ _ := statement_executes node fun _ => trivial
    exact orderly_statements rest ((hexec hh.toInBody h).stationed hh)

theorem tidyScan_declarators (nodes : List Node) (x : Id) :
    TidyScan x (declarators nodes (.ofScope x)) := by
  cases nodes with
  | nil =>
    rw [declarators]
    exact fun _ _ _ _ => .pure
  | cons node rest =>
    cases node with
    | variableDeclarator loc id init =>
      exact tidyScan_declarator (tidy_expression init (.ofScope x)) (tidyScan_declarators rest x)
    | _ =>
      simp only [declarators]
      exact fun _ _ _ _ => .fail

end

theorem calm_hostGlobals (names : List String) : Calm (hostGlobals names) := by
  induction names with
  | nil => exact .pure
  | cons name rest ih => exact calm_fresh.bind fun _ => ih.bind fun _ => .pure

theorem silent_seedGlobals (scope : Id) (loc : Location) (globals : List Global) :
    Silent (seedGlobals scope loc globals) := by
  induction globals with
  | nil => exact Calm.pure.silent
  | cons g rest ih =>
    exact calm_fresh.silent.bind fun _ => Silent.bind (fun _ => rfl) fun _ =>
      (calm_append _).silent.bind fun _ => ih

theorem calm_reportFunctions (functions : List Function) : Calm (reportFunctions functions) := by
  induction functions with
  | nil => exact .pure
  | cons f rest ih => exact (calm_report _).bind fun _ => ih

theorem clean_program (file : String) (hosts : List String) (node : Node) :
    Clean (program hosts node) (.start file) := by
  cases node with
  | program loc sourceType body =>
    -- the global object, its block and its first field
    refine .andThen rfl rfl (.andThen (a := ()) rfl rfl (.andThen (a := ()) rfl rfl
      (.andThen (a := ()) rfl rfl (.andThen rfl rfl (.andThen (a := ()) rfl rfl
      (.andThen (a := ()) rfl rfl ?_))))))
    have hs := fun log => (Seeded.start file loc log).seed (·.variableOf "globalThis") (.ofScope 0)
      "globalThis" ⟨trivial, .inr rfl, Int.ofNat_lt.mpr Nat.two_pos⟩ (.inr (.inl rfl))
    refine (calm_hostGlobals hosts).clean.bind fun globals s₁ hhosts => ?_
    refine (silent_seedGlobals _ loc _).clean.bind fun _ s₂ hseeds => ?_
    obtain ⟨hosted, prologue, hs₂, -⟩ := seeded_globals (hs _) hhosts hseeds
    have hs₃ := hs₂.logged (.event (.processFunction mainName 0 body.length))
    have hready := hs₃.enterMain_eq ▸ hs₃.ready
    have hnone : ∀ f ∈ s₂.functions, f.parameters ≠ [] := by simp [hs₂.functions]
    refine .andThen (a := s₂) rfl rfl ?_
    refine (clean_function hready ⟨hnone, hs₃.nested_enter _ _ _ _⟩ (orderly_statements body)).bind fun _ s₃ _ => ?_
    refine silent_popScope.clean.bind fun _ s₄ _ => .andThen (a := s₄) rfl rfl ?_
    exact (calm_reportFunctions _).clean.bind fun _ _ _ => .pure
  | _ => exact .fail

end Lower

theorem ProgramRun.parameters_ne_nil {loose : Prop} {file : String} {hosts : List String}
    {node : Node} {functions : List Function} {result : Compilation}
    (p : ProgramRun loose file hosts node functions result) :
    ∀ f ∈ functions, f.parameters ≠ [] := by
  have hnone : ∀ f ∈ (p.seeded.enterMain file p.loc p.prologue).functions, f.parameters ≠ [] := by
    have hstart : (p.seeded.enterMain file p.loc p.prologue).functions = [] := p.seeds.functions
    simp [hstart]
  intro f hf
  rcases p.mem_functions.mp hf with hf | rfl
  · exact p.run.parameters_ne_nil hnone f hf
  · exact (p.run.ready p.seeds.ready).parameters

theorem lower_ne_undefined (file : String) (hosts : List String) (node : Node) :
    (lower file hosts node).1.cause? ≠ some .undefined := by
  have hanswers := Lower.answers_program file hosts node
  have hcause : (lower file hosts node).1.cause? =
      node.programOffences.head?.map Offence.cause := by
    rw [← hanswers, lower]
    cases Lower.program hosts node (.start file) <;> rfl
  rw [hcause]
  intro h
  obtain ⟨offence, -, ho⟩ := Option.map_eq_some_iff.mp h
  cases offence <;> cases ho

/-- Scopes are in order, whatever the tree. Every task that lowering starts is disciplined, so
names are read through the environments; what is entered is left again, in any state, and every
start of a statement or an expression is on record. Nothing is missing when it is looked for, and
the functions of function objects take the implicit parameter. -/
theorem lower_disciplined (file : String) (hosts : List String) (node : Node) :
    (∀ e ∈ (stateOf (Lower.program hosts node (.start file))).entries, e.Disciplined ∧
      ∀ ref ∈ e.task.ref?, ∀ s : Compilation, s.scopes = e.scopes →
        Lower.isLexical ref s = .ok true s) ∧
    (∀ node ref, Opens (.expression node.typeName ref) (Lower.expression node ref)) ∧
    (∀ node, Opens (.statement node.typeName) (Lower.statement node)) ∧
    (∀ name params nodes loc before, Balanced
      (Lower.function name params (List.length nodes) loc before (Lower.statements nodes))) ∧
    (∀ name params loc before body, Balanced (Lower.function name params 1 loc before do
      Lower.enter (.statement "ReturnStatement")
      Lower.returnValue body.location
        (Lower.expression body (.ofScope (← Lower.currentScope))))) ∧
    (lower file hosts node).1.cause? ≠ some .undefined ∧
    ∀ functions, (lower file hosts node).1 = .ok functions → ∀ f ∈ functions,
      f.parameters ≠ [] ∧ ∀ v ∈ f.values, v.Callable functions := by
  refine ⟨fun e he => ?_, Lower.opens_expression, Lower.opens_statement, ?_, ?_,
    lower_ne_undefined file hosts node, fun functions h => ?_⟩
  · have hstart : e ∉ (Compilation.start file).entries := List.not_mem_nil
    have hd := (Lower.clean_program file hosts node e he).resolve_left hstart
    exact ⟨hd, fun ref href s hs => hd.isLexical href hs⟩
  · exact fun name params nodes loc before =>
      Lower.balanced_function name params _ loc before (Lower.balanced_statements nodes)
  · exact fun name params loc before body => Lower.balanced_function name params 1 loc before
      (Lower.balanced_shortBody fun x => (Lower.opens_expression body (.ofScope x)).toBalanced)
  · obtain ⟨result, ⟨p⟩⟩ := exists_programRun h
    refine fun f hf => ⟨p.parameters_ne_nil f hf, fun v hv => ?_⟩
    exact ((p.complete f hf).proper_of_mem hv).callable p.parameters_ne_nil

-- `({ a: b })`: while `b` is read, the object is on top of the environments.
example :
    let property : Node :=
      .property {} (.identifier {} "a") (.identifier {} "b") "init" false false false
    let node : Node := .program {} "module" [.expressionStatement {} (.object {} [property])]
    (stateOf (Lower.program [] node (.start "a.js"))).entries.map
      (fun e => (e.task.ref?.map Value.id, e.scopes.stack)) =
    [(some 8, [8, 6, 0]), (some 6, [6, 0]), (none, [6, 0])] := by
  decide +kernel

end ScopeIR
