import ScopeIR.Proofs.Offences
import ScopeIR.Proofs.Outcomes
import ScopeIR.Proofs.Programs

/-! Lowering refuses exactly the trees with offences: in the states that it goes through, no
step lacks a scope, a block or a function. -/
namespace ScopeIR

variable {s s' : Compilation} {code : List Instruction} {ref : Value} {os more : List Offence}

/-- Code can be placed: there is a block, and a scope to start another one in. -/
structure Writable (s : Compilation) : Prop where
  blocks : s.frame.blocks ≠ []
  scope : ∃ x rest kind, s.scopes.stack = x :: rest ∧ s.scopes.kind? x = some kind

theorem InBody.writable (hb : InBody ⟨s, code⟩) : Writable s := by
  obtain ⟨x, _, _, stack, hstack, -⟩ := hb.top
  obtain ⟨kind, hk⟩ := hb.ready.sound.stack x (hstack ▸ List.mem_cons_self)
  exact ⟨hb.ready.blocks, x, stack, kind, hstack, hk⟩

theorem Writable.assign (hw : Writable s) (x : Id) (name : String) (value : Value) :
    Writable { s with scopes := s.scopes.modifyScope x fun scope =>
      (scope.declare name).assign (scope.variableOf name) (some value) } := by
  obtain ⟨y, rest, kind, hstack, hk⟩ := hw.scope
  exact ⟨hw.blocks, y, rest, kind, hstack, (ScopeTable.kind?_assign _ _ _ _ _).trans hk⟩

theorem Writable.append {u : Unit} (hw : Writable s) (h : Lower.append code s = .ok u s') :
    Writable s' := by
  obtain ⟨-, rfl⟩ := Lower.append_eq_ok.mp h
  exact ⟨Frame.blocks_extend_ne_nil hw.blocks _, hw.scope⟩

theorem Writable.ensureOpen {loc : Location} {u : Unit} (hw : Writable s)
    (h : Lower.ensureOpen loc s = .ok u s') : Writable s' := by
  simp only [Lower.ensureOpen, Lower.bind_eq_ok] at h
  obtain ⟨block, _, hblock, h⟩ := h
  obtain ⟨rfl, -⟩ := Lower.currentBlock_eq_ok hblock
  split at h
  · simp only [Lower.bind_eq_ok, Lower.startBlock_eq_ok] at h
    obtain ⟨scope, _, hscope, rfl⟩ := h
    obtain ⟨x, rest, kind, hstack, hk⟩ := hw.scope
    obtain ⟨rfl, -⟩ := Lower.currentScope_of_stack hscope hstack hk
    exact ⟨List.cons_ne_nil _ _, hw.scope⟩
  · cases h
    exact hw

theorem Writable.spend (hw : Writable s) : Writable s.spend := ⟨hw.blocks, hw.scope⟩

def Judges {α : Type} (ref : Value) (os : List Offence) (step : Lower α) : Prop :=
  ∀ ⦃s : Compilation⦄ ⦃code : List Instruction⦄, Sited ref ⟨s, code⟩ → Answers step s os

def Decides (os : List Offence) (step : Lower Unit) : Prop :=
  ∀ ⦃s : Compilation⦄, InBody ⟨s, []⟩ → Answers step s os

theorem Judges.entered {α : Type} {step : Lower α} (h : Judges ref os step) (task : Task) :
    Judges ref os (do Lower.enter task; step) := by
  intro s code hs
  refine (Lower.total_enter task s).before fun _ s₁ henter => ?_
  have hstart : Run True ⟨s, code⟩ {} ⟨s₁, code⟩ := Lower.enter_run code henter
  exact h (hstart.sited hs)

theorem Decides.entered {step : Lower Unit} (h : Decides os step) (task : Task) :
    Decides os (do Lower.enter task; step) := by
  intro s hb
  refine (Lower.total_enter task s).before fun _ s₁ henter => ?_
  have hstart : Run True ⟨s, []⟩ {} ⟨s₁, []⟩ := Lower.enter_run [] henter
  exact h (hstart.inBody hb)

namespace Lower

theorem fresh_eq (s : Compilation) : fresh s = .ok (s.scopes.next : Id) s.spend := rfl

/-- Links between scopes are loose here: trees may name the parent field. -/
theorem evaluates_expression (node : Node) (ref : Value) :
    Evaluates True ref { functions := node.functions } (expression node ref) :=
  expression_evaluates node ref fun _ => trivial

theorem executes_statements (nodes : List Node) :
    Executes True (Node.allWork nodes) (statements nodes) :=
  statements_executes nodes fun _ _ _ => trivial

theorem answers_environment (hs : Sited ref ⟨s, code⟩) : Answers environment s [] := by
  obtain ⟨scope, hscope, -⟩ := hs.environment
  exact .andThen (a := s) rfl ((Answers.require hscope).before fun _ _ _ => .pure)

theorem answers_resolve (hs : Sited ref ⟨s, code⟩) (name : String) :
    Answers (resolve name) s [] := by
  obtain ⟨scope, hscope, -⟩ := hs.environment
  have hne : s.scopes.environments ≠ [] := by
    intro h
    rw [ScopeTable.environment?, h] at hscope
    cases hscope
  refine .andThen (a := s) rfl ?_
  dsimp only
  split
  · exact .pure
  · exact (Answers.require (List.getLast?_eq_some_getLast hne)).before fun _ _ _ => .pure

theorem answers_append (hb : s.frame.blocks ≠ []) (code : List Instruction) :
    Answers (append code) s [] :=
  answers_nil.mpr ⟨(), _, append_eq_ok.mpr ⟨hb, rfl⟩⟩

theorem answers_currentBlock (hb : s.frame.blocks ≠ []) : Answers currentBlock s [] := by
  obtain ⟨block, older, hblocks⟩ := List.exists_cons_of_ne_nil hb
  exact .andThen (a := s) rfl (.require (congrArg List.head? hblocks))

theorem answers_currentScope (hw : Writable s) : Answers currentScope s [] := by
  obtain ⟨x, rest, kind, hstack, hk⟩ := hw.scope
  obtain ⟨scope, hscope, -⟩ := ScopeTable.scope?_of_kind? hk
  have hcurrent := ScopeTable.current?_of_stack hstack hscope
  exact .andThen (a := s) rfl ((Answers.require hcurrent).before fun _ _ _ => .pure)

theorem answers_ensureOpen (hw : Writable s) (loc : Location) :
    Answers (ensureOpen loc) s [] := by
  refine (answers_currentBlock hw.blocks).before fun block s₁ hblock => ?_
  obtain ⟨rfl, -⟩ := currentBlock_eq_ok hblock
  split
  · exact (answers_currentScope hw).before fun _ _ _ => rfl
  · exact .pure

theorem answers_emit (hw : Writable s) (loc : Location) (added : List Instruction) :
    Answers (emit loc added) s [] := by
  unfold emit
  split
  · exact .pure
  · refine (answers_ensureOpen hw loc).before fun _ s₁ hopen => ?_
    exact answers_append (hw.ensureOpen hopen).blocks _

theorem answers_leaveBlock (hb : s.frame.blocks ≠ []) {x parent : Id} {rest : List Id}
    {kind around : ScopeKind} (hs : s.scopes.stack = x :: parent :: rest)
    (hx : s.scopes.kind? x = some kind) (hp : s.scopes.kind? parent = some around)
    (loc : Location) : Answers (leaveBlock loc) s [] := by
  refine (total_popScope s).before fun _ s₁ hpop => ?_
  have hw : Writable s₁ := by
    rw [popScope_eq_ok hpop hs hx]
    exact ⟨hb, parent, rest, around, congrArg List.tail hs, hp⟩
  refine (answers_currentBlock hw.blocks).before fun last s₂ hlast => ?_
  obtain ⟨rfl, -⟩ := currentBlock_eq_ok hlast
  split
  · refine (answers_append hw.blocks _).before fun _ s₂ happend => ?_
    exact (answers_currentScope (hw.append happend)).before fun _ _ _ => rfl
  · exact .pure

theorem answers_readName (hs : Sited ref ⟨s, code⟩) (name : String) (loc : Location) :
    Answers (readName name ref loc) s [] := by
  refine (total_isLexical ref s).before fun lexical s₁ hl => ?_
  obtain ⟨rfl, rfl⟩ := isLexical_eq_ok hs hl
  refine .andThen (a := s) rfl ?_
  split
  · exact .pure
  · refine (answers_resolve hs name).before fun owner s₁ hr => ?_
    obtain ⟨rfl, -⟩ := resolve_eq_ok hr
    refine (answers_environment hs).before fun id s₁ he => ?_
    exact (total_chain _ _ _ _).before fun _ _ _ => total_read _ _ _ _ _ _

theorem answers_identifier (hs : Sited ref ⟨s, code⟩) (name : String) (loc : Location) :
    Answers (identifier name ref loc) s [] :=
  .andThen (a := s) rfl ((answers_readName hs name loc).before fun _ _ _ => rfl)

theorem answers_assignIdentifier (hs : Sited ref ⟨s, code⟩) (name : String) (value : Value)
    (loc : Location) : Answers (assignIdentifier name value ref loc) s [] := by
  have hwrite : Answers (writeName name value ref loc) s [] := by
    refine (total_isLexical ref s).before fun lexical s₁ hl => ?_
    obtain ⟨rfl, rfl⟩ := isLexical_eq_ok hs hl
    refine (answers_resolve hs name).before fun owner s₁ hr => ?_
    obtain ⟨rfl, -⟩ := resolve_eq_ok hr
    refine (answers_environment hs).before fun id s₁ he => ?_
    exact (total_chain _ _ _ _).before fun _ _ _ => rfl
  exact .andThen (a := s) rfl (hwrite.before fun _ _ _ => rfl)

theorem answers_assignTarget (hs : Sited ref ⟨s, code⟩) {target : Node}
    (hm : target.isMissing = false) (value : Value) :
    Answers (assignTarget target value ref) s [] := by
  cases target with
  | identifier loc name => exact answers_assignIdentifier hs name value loc
  | missing => cases hm
  | _ => rfl

theorem answers_callOf (hs : Sited ref ⟨s, code⟩) {callee : Value}
    (hc : Draft.Yields ⟨s, code⟩ callee) (loc : Location) (arguments : List Value) :
    Answers (callOf loc callee arguments) s [] := by
  refine (answers_environment hs).before fun id s₁ he => ?_
  obtain ⟨rfl, -⟩ := environment_eq_ok he
  refine .andThen (fresh_eq s) ?_
  cases callee with
  | func id link =>
    obtain ⟨name, position, f, rfl, hf, -⟩ := hc.tame.proper
    refine .andThen (a := ⟨.user name s.file, some position⟩) rfl (.andThen (a := position) rfl ?_)
    exact .andThen (a := s.spend) rfl ((Answers.require hf).before fun _ _ _ => .pure)
  | ref | const | scope => exact .pure

theorem answers_literal (source : LiteralSource) (loc : Location) :
    Answers (literal source loc) s source.offences := by
  unfold literal LiteralSource.offences
  cases source.regex with
  | some regex => exact total_constant _ _ _ s
  | none =>
    cases source.bigint.isEmpty with
    | true =>
      cases source.value with
      | null => rfl
      | str | num | bool => exact total_constant _ _ _ s
      | _ => rfl
    | false =>
      cases signedInt? source.bigint with
      | some value => exact total_constant _ _ _ s
      | none => rfl

theorem answers_bindParameters (hw : Writable s) (scope : Id) (ps : List Parameter) :
    Answers (bindParameters scope ps) s [] := by
  induction ps generalizing s with
  | nil => exact .pure
  | cons p rest ih =>
    unfold bindParameters
    split
    · refine (total_assign _ _ _ s).before fun _ s₁ hassign => ?_
      have hw₁ : Writable s₁ := by
        cases hassign
        exact hw.assign scope p.name p.value
      refine .andThen (fresh_eq s₁) ?_
      refine (answers_append hw₁.spend.blocks _).before fun _ s₂ happend => ?_
      exact ih (hw₁.spend.append happend)
    · exact ih hw

theorem answers_finishFunction (hb : s.frame.blocks ≠ []) (loc : Location) (outer : Frame) :
    Answers (finishFunction loc outer) s [] := by
  refine (answers_currentBlock hb).before fun last s₁ hlast => ?_
  obtain ⟨rfl, -⟩ := currentBlock_eq_ok hlast
  split
  · exact (answers_append hb _).before fun _ _ _ => rfl
  · rfl

theorem answers_function {name : String} {params : List Node} {statements : Nat} {loc : Location}
    {before : List Block} {body : Lower Unit} {w : Work}
    (hr : Ready ⟨(s.logged (.event (.processFunction name params.length statements))).enter
      (.user name s.file) params loc (leadingIn loc before), []⟩)
    (hexec : Executes True w body) (hbody : Decides os body) :
    Answers (function name params statements loc before body) s os := by
  refine .andThen (a := ()) rfl (.andThen rfl (.andThen rfl ?_))
  refine .andThen (enterFunction_eq _ _ _ _) ?_
  have hw : Writable _ := InBody.writable (.of_stack hr (Compilation.enters_enter _ _ _ _ _).stack
    (Compilation.enters_enter _ _ _ _ _).new rfl)
  refine (answers_bindParameters hw _ _).before fun _ s₁ hbind => ?_
  obtain ⟨-, hin⟩ := entry_run hr (fun _ _ _ => trivial) hbind
  refine (hbody hin).within.closing fun _ s₂ h => ?_
  have hrun := hexec hin (within_eq_ok.mp h)
  refine (answers_finishFunction (hrun.ready hin.ready).blocks _ _).before fun _ s₃ _ => ?_
  exact (total_popScope s₃).before fun _ _ _ => .pure

theorem answers_nested {name : String} {params : List Node} {statements : Nat} {loc : Location}
    {body : Lower Unit} {w : Work} (hr : Ready ⟨s, code⟩) (hexec : Executes True w body)
    (hbody : Decides os body) :
    Answers (function name params statements loc [] body) s.spend os := by
  have hreport : Run True ⟨s, code⟩ {} _ :=
    .report s code (.event (.processFunction name params.length statements))
  exact answers_function ((hreport.ready hr).enter (.user name s.file) params loc) hexec hbody

theorem judges_functionObject {params : List Node} {statements : Nat} {loc : Location}
    {body : Lower Unit} {w : Work} (hexec : Executes True w body) (hbody : Decides os body) :
    Judges ref os (functionObject params statements loc body) := by
  intro s code hs
  refine .andThen (fresh_eq s) (.andThen (a := s.nestedName) rfl ?_)
  exact (answers_nested hs.ready hexec hbody).closing fun _ _ _ => rfl

/-! Expressions: what is wrong with the whole is what is wrong with its parts. -/

/-- After an expression the next one can be lowered, and its value is at hand. -/
theorem sited_expression {node : Node} {e : Lowered} (hs : Sited ref ⟨s, code⟩)
    (h : expression node ref s = .ok e s') :
    Sited ref ⟨s', code ++ e.code⟩ ∧ Draft.Yields ⟨s', code ++ e.code⟩ e.value := by
  exact (evaluates_expression node ref hs h).imp_left fun hrun => hrun.sited hs

theorem answers_place {α : Type} {node : Node} {f : Option Place → Lower α}
    (hs : Sited ref ⟨s, code⟩)
    (hplace : Judges ref (if node.isMember then os else []) (memberPlace node ref))
    (hsome : ∀ place, Total (f (some place)))
    (hnone : node.isMember = false → Answers (f none) s more) :
    Answers (memberPlace node ref >>= f) s (if node.isMember then os else more) := by
  have hlocates : Locates True ref node _ := memberPlace_locates node ref fun _ => trivial
  cases hm : node.isMember with
  | true =>
    rw [hm] at hplace
    refine (hplace hs).closing fun place s₁ hp => ?_
    cases place with
    | some place => exact hsome place s₁
    | none => exact absurd ((hlocates hs).2 hp).1 (by simp [hm])
  | false =>
    rw [hm] at hplace
    refine (hplace hs).before fun place s₁ hp => ?_
    cases place with
    | some place => exact absurd ((hlocates hs).1 hp).1 (by simp [hm])
    | none =>
      obtain ⟨-, rfl⟩ := (hlocates hs).2 hp
      exact hnone hm

theorem answers_modifyTarget {node : Node} {combine : Value → Lower Lowered}
    (hs : Sited ref ⟨s, code⟩) (hm : node.isMissing = false)
    (hread : Judges ref os (expression node ref)) (htotal : ∀ old, Total (combine old))
    (hc : Combines True ref ⟨s, code⟩ combine) :
    Answers (modifyTarget node (expression node ref) ref combine) s os := by
  refine (hread hs).closing fun old s₁ hold => ?_
  obtain ⟨hrun, hy⟩ := evaluates_expression node ref hs hold
  have hs₁ := hrun.sited hs
  refine (htotal _ s₁).before fun new s₂ hnew => ?_
  have hs₂ := (hc hrun.extends hs₁ hy hnew).1.sited hs₁
  have hassign : Judges ref [] (assignTarget node new.value ref) :=
    fun _ _ hs => answers_assignTarget hs hm _
  exact ((hassign.entered (.assign ref)) hs₂).before fun _ _ _ => .pure

theorem judges_assignment {loc : Location} {operator : String} {left right : Node}
    (hleft : Judges ref left.offences (expression left ref))
    (hplace : Judges ref (if left.isMember then left.offences else []) (memberPlace left ref))
    (hright : Judges ref right.offences (expression right ref)) :
    Judges ref (Node.assignment loc operator left right).offences
      (expression (.assignment loc operator left right) ref) := by
  rw [expression, Node.offences]
  refine .entered ?_ _
  intro s code hs
  refine .guarded .malformed fun hpresent => ?_
  have hm : left.isMissing = false := by
    simp only [Bool.or_eq_true, not_or, Bool.not_eq_true] at hpresent
    exact hpresent.1
  refine (hright hs).within.bind fun r s₁ hr => ?_
  obtain ⟨hs₁, hy⟩ := sited_expression hs (within_eq_ok.mp hr)
  cases hop : (compoundPart operator).isEmpty with
  | true =>
    simp only [hop, if_true, Bool.not_true, Bool.or_false]
    refine (total_enter _ s₁).before fun _ s₂ henter => ?_
    have hstart : Run True _ _ _ := enter_run (code ++ r.code) henter
    have hs₁ := hstart.sited hs₁
    refine answers_place hs₁ hplace (fun place => ?_) fun _ => ?_
    · exact (total_store _ _).bind fun _ => .pure
    · exact (answers_assignTarget hs₁ hm _).before fun _ _ _ => .pure
  | false =>
    simp only [hop, Bool.false_eq_true, if_false, Bool.not_false, Bool.or_true, if_true]
    refine Answers.closing (.within ?_) fun _ _ _ => .pure
    rw [← ite_self (c := left.isMember = true) left.offences]
    refine (total_enter _ s₁).before fun _ s₂ henter => ?_
    have hstart : Run True _ _ _ := enter_run (code ++ r.code) henter
    have hy := hstart.extends.yields hs₁.ready hy
    have hs₁ := hstart.sited hs₁
    refine answers_place hs₁ hplace (fun place => ?_) fun _ => ?_
    · exact total_modifyPlace place (total_compoundStep loc (compoundPart operator) r.value)
    · exact answers_modifyTarget hs₁ hm hleft (total_compoundStep _ _ _)
        (compoundStep_combines hs₁.ready hy)

theorem judges_update {loc : Location} {operator : String} {prefixed : Bool} {argument : Node}
    (harg : Judges ref argument.offences (expression argument ref))
    (hplace : Judges ref (if argument.isMember then argument.offences else [])
      (memberPlace argument ref)) :
    Judges ref (Node.update loc operator prefixed argument).offences
      (expression (.update loc operator prefixed argument) ref) := by
  rw [expression, Node.offences]
  refine .entered ?_ _
  intro s code hs
  refine .guarded .malformed fun hpresent => ?_
  have hm : argument.isMissing = false := by
    simp only [Bool.or_eq_true, not_or, Bool.not_eq_true] at hpresent
    exact hpresent.1
  refine Answers.closing (.within ?_) fun _ _ _ => .pure
  rw [← ite_self (c := argument.isMember = true) argument.offences]
  refine (total_enter _ s).before fun _ s₁ henter => ?_
  have hstart : Run True _ _ _ := enter_run code henter
  have hs := hstart.sited hs
  refine answers_place hs hplace (fun place => ?_) fun _ => ?_
  · exact total_modifyPlace place (total_updateStep loc operator)
  · exact answers_modifyTarget hs hm harg (total_updateStep _ _) updateStep_combines

theorem judges_call {loc : Location} {callee : Node} {args : List Node} {optional : Bool}
    (hargs : Judges ref (Node.argumentOffences args) (arguments 0 args ref))
    (hcallee : Judges ref callee.offences (expression callee ref)) :
    Judges ref (Node.call loc callee args optional).offences
      (expression (.call loc callee args optional) ref) := by
  rw [expression, Node.offences]
  refine .entered ?_ _
  intro s code hs
  refine .guarded .malformed fun _ => ?_
  refine (hargs hs).bind fun passed s₁ ha => ?_
  have hpasses : Passes True ref _ _ := arguments_passes 0 args ref fun _ _ _ => trivial
  have hs₁ := (hpasses hs ha).1.sited hs
  refine (hcallee hs₁).within.closing fun target s₂ ht => ?_
  obtain ⟨hs₂, hy⟩ := sited_expression hs₁ (within_eq_ok.mp ht)
  refine (total_enter _ s₂).before fun _ s₃ henter => ?_
  have hstart : Run True _ _ _ := enter_run (code ++ passed.1 ++ target.code) henter
  have hy := hstart.extends.yields hs₂.ready hy
  exact (answers_callOf (hstart.sited hs₂) hy loc _).before fun _ _ _ => .pure

theorem judges_placeOf {loc : Location} {obj prop : Node} {computed : Bool}
    (ho : Judges ref obj.offences (expression obj ref))
    (hp : Judges ref prop.offences (expression prop ref)) (optional : Bool) :
    Judges ref (Node.member loc obj prop computed optional).offences
      (placeOf loc obj prop computed (expression obj ref) (expression prop ref)) := by
  rw [placeOf, Node.offences]
  intro s code hs
  refine .guarded .malformed fun _ => ?_
  refine (ho hs).within.bind fun base s₁ hbase => ?_
  obtain ⟨hs₁, -⟩ := sited_expression hs (within_eq_ok.mp hbase)
  cases prop.staticName? computed with
  | some name => exact .pure
  | none => exact (hp hs₁).within.closing fun _ _ _ => .pure

theorem judges_member {loc : Location} {obj prop : Node} {computed optional : Bool}
    (ho : Judges ref obj.offences (expression obj ref))
    (hp : Judges ref prop.offences (expression prop ref)) :
    Judges ref (Node.member loc obj prop computed optional).offences
      (expression (.member loc obj prop computed optional) ref) := by
  rw [expression]
  refine .entered ?_ _
  intro s code hs
  refine (judges_placeOf ho hp optional hs).closing fun place s₁ _ => ?_
  exact (total_load place s₁).before fun _ _ _ => .pure

def Inspects (ref : Value) (x : Id) (os : List Offence) (step : Lower (List Instruction)) : Prop :=
  ∀ ⦃s : Compilation⦄ ⦃code : List Instruction⦄, Sited ref ⟨s, code⟩ → IsObject ⟨s, code⟩ x →
    Answers step s os

theorem judges_array {loc : Location} {items : List Node}
    (helements : ∀ x, Inspects ref x (Node.elementOffences items)
      (elements 0 items (.ofScope x) ref)) :
    Judges ref (Node.array loc items).offences (expression (.array loc items) ref) := by
  rw [expression, Node.offences]
  refine .entered ?_ _
  intro s code hs
  have hrun : Run True _ _ _ := withObject_run s code loc
  have hcreate : createScope .object s = .ok (s.scopes.next : Id) (withObject s) := rfl
  refine .andThen hcreate ?_
  exact (helements _ (hrun.sited hs) (isObject_withObject s code loc)).closing fun _ _ _ => .pure

theorem judges_object {loc : Location} {properties : List Node}
    (hmembers : ∀ x, Inspects (.ofScope x) x (Node.memberOffences properties)
      (members properties (.ofScope x))) :
    Judges ref (Node.object loc properties).offences (expression (.object loc properties) ref) := by
  rw [expression, Node.offences]
  refine .entered ?_ _
  intro s code hs
  have hrun : Run True _ _ _ := withObject_run s code loc
  have hobject := isObject_withObject s code loc
  have hcreate : createScope .object s = .ok (s.scopes.next : Id) (withObject s) := rfl
  have hpush : pushScope s.scopes.next .object (withObject s) = .ok () (Compilation.logged
    { withObject s with scopes := (withObject s).scopes.push s.scopes.next } _) := rfl
  refine .andThen hcreate (.andThen hpush ?_)
  obtain ⟨hsited, hx⟩ := sited_push (hrun.ready hs.ready) hobject _
  refine (hmembers _ hsited hx).closing fun _ s₁ _ => ?_
  exact (total_popScope s₁).before fun _ _ _ => .pure

theorem judges_operation {loc : Location} {definition : FunctionDefinition} {nodes : List Node}
    (h : ∀ node ∈ nodes, Judges ref node.offences (expression node ref)) :
    Judges ref (nodes.flatMap Node.offences)
      (operation loc definition (nodes.map (expression · ref))) := by
  have hrun : ∀ i, Judges ref (nodes.flatMap Node.offences)
      (operation.run definition i (nodes.map (expression · ref))) := by
    induction nodes with
    | nil => exact fun _ _ _ _ => .pure
    | cons node rest ih =>
      intro i s code hs
      refine (h node List.mem_cons_self hs).within.bind fun e s₁ he => ?_
      obtain ⟨hs₁, -⟩ := sited_expression hs (within_eq_ok.mp he)
      have hrest := ih (fun n hn => h n (List.mem_cons_of_mem _ hn)) (i + 1) hs₁
      exact hrest.closing fun _ _ _ => .pure
  intro s code hs
  exact (hrun 0 hs).closing fun _ s₁ _ => .andThen (fresh_eq s₁) .pure

theorem knownArgument_offences {node : Node} {value : Value}
    (h : knownArgument node ref s = .ok (some value) s') : node.offences = [] := by
  cases node with
  | identifier loc name => exact Node.offences_identifier loc name
  | _ => simp [knownArgument] at h

theorem judges_arguments_cons {node : Node} {rest : List Node} (i : Nat)
    (hnode : Judges ref node.offences (expression node ref))
    (hrest : Judges ref (Node.argumentOffences rest) (arguments (i + 1) rest ref)) :
    Judges ref (Node.argumentOffences (node :: rest)) (arguments i (node :: rest) ref) := by
  rw [arguments, Node.argumentOffences]
  refine Judges.entered ?_ _
  intro s code hs
  refine (total_knownArgument node ref s).before fun known s₁ hknown => ?_
  obtain ⟨rfl, -⟩ := knownArgument_eq_ok hs hknown
  cases known with
  | some value =>
    rw [knownArgument_offences hknown]
    exact .andThen rfl ((hrest hs).closing fun _ _ _ => .pure)
  | none =>
    refine (hnode hs).within.bind fun e s₁ he => ?_
    obtain ⟨hs₁, -⟩ := sited_expression hs (within_eq_ok.mp he)
    exact (hrest hs₁).closing fun _ _ _ => .pure

theorem filled_declareField {x : Id} {node : Node} {e : Lowered} {s₁ s₂ : Compilation}
    {name : String} {loc : Location} {write : List Instruction} (hs : Sited ref ⟨s, code⟩)
    (hx : IsObject ⟨s, code⟩ x) (he : expression node ref s = .ok e s₁)
    (hwrite : declareField name e.value (.ofScope x) loc s₁ = .ok write s₂) :
    Run True ⟨s, code⟩ { functions := node.functions } ⟨s₂, code ++ e.code ++ write⟩ := by
  obtain ⟨hrun, hy⟩ := evaluates_expression node ref hs he
  have hstore : Run True _ _ _ :=
    declareField_object_run (hrun.ready hs.ready) (hx.run hrun hs.ready) hy hwrite
  exact hrun.andThen hstore

theorem filled_setFieldDynamic {x : Id} {key value : Node} {k v : Lowered} {s₁ s₂ : Compilation}
    (loc : Location) (hs : Sited ref ⟨s, code⟩) (hx : IsObject ⟨s, code⟩ x)
    (hk : expression key ref s = .ok k s₁) (hv : expression value ref s₁ = .ok v s₂) :
    ∃ w code', Run True ⟨s, code⟩ w ⟨s₂.spend, code'⟩ := by
  obtain ⟨hrun, hyk⟩ := evaluates_expression key ref hs hk
  obtain ⟨hrun₁, hyv⟩ := evaluates_expression value ref (hrun.sited hs) hv
  have hpair := hrun.trans hrun₁
  have hcall : Run True _ _ _ := setFieldDynamic_run (hpair.ready hs.ready)
    (hx.run hpair hs.ready) loc (hrun₁.extends.usable (hrun.ready hs.ready) hyk.usable) hyv.usable
  exact ⟨_, _, hpair.andThen hcall⟩

theorem inspects_property {loc : Location} {key value : Node} {kind : String}
    {computed method shorthand : Bool} {rest : List Node} {x : Id}
    (hkey : Judges (.ofScope x) key.offences (expression key (.ofScope x)))
    (hvalue : Judges (.ofScope x) value.offences (expression value (.ofScope x)))
    (hrest : Inspects (.ofScope x) x (Node.memberOffences rest) (members rest (.ofScope x))) :
    Inspects (.ofScope x) x
      (Node.memberOffences (.property loc key value kind computed method shorthand :: rest))
      (members (.property loc key value kind computed method shorthand :: rest) (.ofScope x)) := by
  rw [members, Node.memberOffences]
  intro s code hs hx
  refine .guarded .malformed fun _ => .guarded .placeholder fun _ => ?_
  cases key.staticName? computed with
  | some name =>
    refine (hvalue hs).within.bind fun v s₁ hv => ?_
    refine (total_declareField _ _ _ _ s₁).before fun write s₂ hwrite => ?_
    have hrun := filled_declareField hs hx (within_eq_ok.mp hv) hwrite
    exact .andThen rfl ((hrest (hrun.sited hs) (hx.run hrun hs.ready)).closing fun _ _ _ => .pure)
  | none =>
    rw [List.append_assoc]
    refine (hkey hs).within.bind fun k s₁ hk => ?_
    have hk := within_eq_ok.mp hk
    obtain ⟨hs₁, -⟩ := sited_expression hs hk
    refine (hvalue hs₁).within.bind fun v s₂ hv => ?_
    refine .andThen (fresh_eq s₂) (.andThen rfl ?_)
    obtain ⟨w, code', hrun⟩ := filled_setFieldDynamic loc hs hx hk (within_eq_ok.mp hv)
    exact (hrest (hrun.sited hs) (hx.run hrun hs.ready)).closing fun _ _ _ => .pure

theorem inspects_passOver {x : Id} {step : Lower (List Instruction)} (h : Inspects ref x os step)
    (type : String) (loc : Location) :
    Inspects ref x os (do passOver .objectMember type loc; step) := by
  intro s code hs hx
  have hreport : Run True ⟨s, code⟩ {} _ :=
    .report s code (.event (.unsupported .objectMember type loc s.frame.definition.name))
  exact .andThen (a := ()) rfl (h (hreport.sited hs) (hx.run hreport hs.ready))

theorem inspects_element {node : Node} {rest : List Node} {x : Id} (i : Nat)
    (hmissing : node ≠ .missing) (hnode : Judges ref node.offences (expression node ref))
    (hrest : Inspects ref x (Node.elementOffences rest) (elements (i + 1) rest (.ofScope x) ref)) :
    Inspects ref x (Node.elementOffences (node :: rest))
      (elements i (node :: rest) (.ofScope x) ref) := by
  rw [elements, Node.elementOffences]
  · intro s code hs hx
    refine (hnode hs).within.bind fun v s₁ hv => ?_
    refine (total_declareField _ _ _ _ s₁).before fun write s₂ hwrite => ?_
    have hrun := filled_declareField hs hx (within_eq_ok.mp hv) hwrite
    exact (hrest (hrun.sited hs) (hx.run hrun hs.ready)).closing fun _ _ _ => .pure
  · exact hmissing
  · exact hmissing

def Scans (x : Id) (os : List Offence) (step : Lower (List Instruction)) : Prop :=
  ∀ ⦃s : Compilation⦄ ⦃code : List Instruction⦄, Sited (.ofScope x) ⟨s, code⟩ →
    x ∈ Draft.defined ⟨s, code⟩ → Answers step s os

theorem Scans.declareTarget {x : Id} {id : Node} {e : Lowered} {w : Work} {s₁ : Compilation}
    {step : Lower (List Instruction)} (hrest : Scans x os step) (hs : Sited (.ofScope x) ⟨s, code⟩)
    (hx : x ∈ Draft.defined ⟨s, code⟩) (hrun : Run True ⟨s, code⟩ w ⟨s₁, code ++ e.code⟩)
    (hy : Draft.Yields ⟨s₁, code ++ e.code⟩ e.value) :
    Answers (do
      let write ← declareTarget id e.value (.ofScope x)
      return e.code ++ write ++ (← step)) s₁ os := by
  refine (total_declareTarget _ _ _ s₁).before fun write s₂ hwrite => ?_
  have hstore : Run True _ _ _ := declareTarget_run (hrun.ready hs.ready)
    (hrun.extends.defined hs.ready.blocks hx) (fun _ => trivial) hy hwrite
  have hall := hrun.andThen hstore
  refine (hrest (hall.sited hs) (hall.extends.defined hs.ready.blocks hx)).closing ?_
  exact fun _ _ _ => .pure

theorem scans_declarator {loc : Location} {id init : Node} {rest : List Node} {x : Id}
    (hinit : Judges (.ofScope x) init.offences (expression init (.ofScope x)))
    (hrest : Scans x (Node.declaratorOffences rest) (declarators rest (.ofScope x))) :
    Scans x (Node.declaratorOffences (.variableDeclarator loc id init :: rest))
      (declarators (.variableDeclarator loc id init :: rest) (.ofScope x)) := by
  rw [declarators, Node.declaratorOffences]
  intro s code hs hx
  refine .guarded .malformed fun _ => ?_
  cases init.isMissing with
  | true =>
    refine .andThen (a := { value := .null }) rfl (hrest.declareTarget (w := {}) hs hx ?_ ?_)
    · simpa using Run.refl _
    · exact Draft.yields_null _
  | false =>
    refine (hinit hs).within.bind fun e s₁ he => ?_
    obtain ⟨hrun, hy⟩ := evaluates_expression init (.ofScope x) hs (within_eq_ok.mp he)
    exact hrest.declareTarget hs hx hrun hy

theorem decides_variableDeclaration {loc : Location} {kind : String} {declarations : List Node}
    (h : ∀ x, Scans x (Node.declaratorOffences declarations)
      (declarators declarations (.ofScope x))) :
    Decides (Node.variableDeclaration loc kind declarations).statementOffences
      (statement (.variableDeclaration loc kind declarations)) := by
  rw [statement, Node.statementOffences]
  refine Decides.entered ?_ _
  intro s hb
  refine (answers_currentScope hb.writable).before fun scope s₁ hscope => ?_
  obtain ⟨rfl, hs, hown, -⟩ := currentScope_eq_ok hb hscope
  refine (h scope hs hown).closing fun added s₁ hadded => ?_
  have hdeclares : Declares True scope _ _ :=
    declarators_declares declarations scope fun _ _ _ => trivial
  exact answers_emit ((hdeclares hs hown hadded).inBody hb).writable _ _

theorem writable_expression {node : Node} {e : Lowered} (hb : InBody ⟨s, []⟩)
    (hs : Sited ref ⟨s, []⟩) (he : expression node ref s = .ok e s') : Writable s' :=
  ((evaluates_expression node ref hs he).1.inBody hb).writable

theorem decides_expressionStatement {loc : Location} {node : Node}
    (h : ∀ x, Judges (.ofScope x) node.offences (expression node (.ofScope x))) :
    Decides (Node.expressionStatement loc node).statementOffences
      (statement (.expressionStatement loc node)) := by
  rw [Node.statementOffences]
  by_cases hm : node = .missing
  · subst hm
    rw [statement, Node.offences_missing]
    exact Decides.entered (fun _ _ => .fail .malformed) _
  rw [statement]
  · refine Decides.entered ?_ _
    intro s hb
    refine (answers_currentScope hb.writable).before fun scope s₁ hscope => ?_
    obtain ⟨rfl, hs, -⟩ := currentScope_eq_ok hb hscope
    exact (h scope hs).closing fun e s₁ he => answers_emit (writable_expression hb hs he) _ _
  · exact hm

theorem decides_returnValue {loc : Location} {node : Node}
    (h : ∀ x, Judges (.ofScope x) node.offences (expression node (.ofScope x))) :
    Decides node.offences (do returnValue loc (expression node (.ofScope (← currentScope)))) := by
  intro s hb
  refine (answers_currentScope hb.writable).before fun scope s₁ hscope => ?_
  obtain ⟨rfl, hs, -⟩ := currentScope_eq_ok hb hscope
  refine (h scope hs).within.closing fun e s₁ he => ?_
  exact answers_emit (writable_expression hb hs (within_eq_ok.mp he)) _ _

theorem decides_returnStatement {loc : Location} {argument : Node}
    (h : ∀ x, Judges (.ofScope x) argument.offences (expression argument (.ofScope x))) :
    Decides (Node.returnStatement loc argument).statementOffences
      (statement (.returnStatement loc argument)) := by
  by_cases hm : argument = .missing
  · subst hm
    rw [statement, Node.statementOffences]
    exact Decides.entered (fun _ hb => answers_emit hb.writable _ _) _
  rw [statement, Node.statementOffences]
  · exact Decides.entered (decides_returnValue h) _
  · exact hm
  · exact hm

theorem decides_blockStatement {loc : Location} {body : List Node}
    (hbody : Decides (Node.bodyOffences body) (statements body)) :
    Decides (Node.blockStatement loc body).statementOffences
      (statement (.blockStatement loc body)) := by
  rw [statement, Node.statementOffences]
  refine Decides.entered ?_ _
  intro s hb
  refine (answers_currentScope hb.writable).before fun parent s₁ hparent => ?_
  obtain ⟨rfl, -, -, -, kind, rest, hchain⟩ := currentScope_eq_ok hb hparent
  refine (answers_ensureOpen hb.writable loc).before fun _ s₁ hopen => ?_
  have hrun : Run True ⟨s, []⟩ {} ⟨s₁, []⟩ := (ensureOpen_run hb hopen).1
  have hb₁ := hrun.inBody hb
  obtain ⟨event, event', henter⟩ := enterBlock_eq (s := s₁) loc parent hb₁.ready.blocks
  refine .andThen henter ?_
  have hin : InBody ⟨s₁.enterBlock loc parent, []⟩ := .of_stack (hb₁.ready.enterBlock loc parent)
    rfl (s₁.enters_enterBlock loc parent).new rfl
  have hlog : Run True ⟨s₁.enterBlock loc parent, []⟩ {} _ :=
    (Run.report _ [] event).trans (.report _ [] event')
  refine (hbody (hlog.inBody hin)).closing fun _ s₂ h => ?_
  have hinner := hlog.trans (executes_statements body (hlog.inBody hin) h)
  obtain ⟨stack, around, hstack, hkind, haround⟩ :=
    enterBlock_stack hb₁ ((hrun.extends.chain hb.ready).trans hchain) hinner
  exact answers_leaveBlock (hinner.ready hin.ready).blocks hstack hkind haround loc

theorem decides_functionDeclaration {loc loc₁ loc₂ : Location} {name : String}
    {params body : List Node} (hbody : Decides (Node.bodyOffences body) (statements body)) :
    Decides (Node.functionDeclaration loc (.identifier loc₁ name) params
        (.blockStatement loc₂ body)).statementOffences
      (statement (.functionDeclaration loc (.identifier loc₁ name) params
        (.blockStatement loc₂ body))) := by
  rw [statement, Node.statementOffences]
  refine Decides.entered ?_ _
  intro s hb
  refine (answers_currentScope hb.writable).before fun scope s₁ hscope => ?_
  obtain ⟨rfl, -⟩ := currentScope_eq_ok hb hscope
  refine Answers.before (x := declare scope name) rfl fun _ s₁ hdeclare => ?_
  have hrun : Run True ⟨s, []⟩ {} ⟨s₁, []⟩ := by
    cases hdeclare
    exact .declare s [] scope name
  have hb₁ := hrun.inBody hb
  refine .andThen (fresh_eq s₁) (.andThen rfl (.andThen rfl ?_))
  have hexec := executes_statements body
  have hf : Answers (function (s₁.nameFor (some name)) params body.length loc [] (statements body))
      s₁.spend (Node.bodyOffences body) := answers_nested hb₁.ready hexec hbody
  refine hf.closing fun link s₂ hlink => ?_
  obtain ⟨hrun₁, -⟩ := function_run hb₁.ready (fun _ _ _ => trivial) hexec
    (fun h => hexec.settles h) hlink
  refine .andThen (a := ()) rfl (.andThen (fresh_eq _) ?_)
  refine (answers_emit (hrun₁.inBody hb₁).writable.spend _ _).before fun _ s₃ _ => ?_
  exact total_assign _ _ _ s₃

theorem decides_badDeclaration {loc : Location} {id body : Node} {params : List Node}
    (h : ∀ loc₁ name loc₂ nodes, id = .identifier loc₁ name → body ≠ .blockStatement loc₂ nodes) :
    Decides (Node.functionDeclaration loc id params body).statementOffences
      (statement (.functionDeclaration loc id params body)) := by
  rw [statement, Node.statementOffences]
  · exact Decides.entered (fun _ _ => .fail .malformed) _
  · exact h
  · exact h

theorem judges_arrow {loc : Location} {params : List Node} {body : Node} {short : Bool}
    (hmissing : body ≠ .missing) (hblock : ∀ loc nodes, body ≠ .blockStatement loc nodes)
    (hbody : ∀ x, Judges (.ofScope x) body.offences (expression body (.ofScope x))) :
    Judges ref (Node.arrowFunction loc params body short).offences
      (expression (.arrowFunction loc params body short) ref) := by
  rw [expression, Node.offences]
  · have hexec := arrowBody_executes fun x => evaluates_expression body (.ofScope x)
    exact .entered (judges_functionObject hexec (Decides.entered (decides_returnValue hbody) _)) _
  · exact hblock
  · exact hmissing
  · exact hblock

mutual

theorem judges_expression (node : Node) (ref : Value) :
    Judges ref node.offences (expression node ref) := by
  cases node with
  | identifier loc name =>
    rw [expression, Node.offences_identifier]
    exact .entered (fun _ _ hs => answers_identifier hs name loc) _
  | literal loc source =>
    simp only [expression, Node.offences]
    exact .entered (fun _ _ _ => answers_literal source loc) _
  | assignment loc operator left right =>
    exact judges_assignment (judges_expression left ref) (judges_memberPlace left ref)
      (judges_expression right ref)
  | call loc callee args optional =>
    exact judges_call (judges_arguments 0 args ref) (judges_expression callee ref)
  | member loc obj prop computed optional =>
    exact judges_member (judges_expression obj ref) (judges_expression prop ref)
  | chain loc inner =>
    simp only [expression, Node.offences]
    exact .entered (judges_expression inner ref) _
  | object loc properties => exact judges_object fun x => inspects_members properties x
  | array loc items => exact judges_array fun x => inspects_elements 0 items x ref
  | functionExpression loc id params body =>
    cases body with
    | blockStatement loc' nodes =>
      simp only [expression, Node.offences]
      exact .entered
        (judges_functionObject (executes_statements nodes) (decides_statements nodes)) _
    | _ =>
      simp only [expression, Node.offences]
      exact .entered (fun _ _ _ => .fail .malformed) _
  | arrowFunction loc params body short =>
    cases body with
    | blockStatement loc' nodes =>
      simp only [expression, Node.offences]
      exact .entered
        (judges_functionObject (executes_statements nodes) (decides_statements nodes)) _
    | missing =>
      simp only [expression, Node.offences]
      exact .entered (fun _ _ _ => .fail .malformed) _
    | _ => exact judges_arrow (by simp) (by simp) fun x => judges_expression _ (.ofScope x)
  | unary loc operator short argument =>
    have ho : ∀ node ∈ [argument], Judges ref node.offences (expression node ref) := by
      simpa using judges_expression argument ref
    simp only [expression, Node.offences]
    exact .entered (by simpa using judges_operation ho) _
  | binary loc operator left right | logical loc operator left right =>
    have ho : ∀ node ∈ [left, right], Judges ref node.offences (expression node ref) := by
      simpa using ⟨judges_expression left ref, judges_expression right ref⟩
    simp only [expression, Node.offences]
    exact .entered (by simpa using judges_operation ho) _
  | conditional loc test consequent alternate =>
    have ho : ∀ node ∈ [test, consequent, alternate],
        Judges ref node.offences (expression node ref) := by
      simpa using ⟨judges_expression test ref, judges_expression consequent ref,
        judges_expression alternate ref⟩
    simp only [expression, Node.offences]
    exact .entered (by simpa using judges_operation ho) _
  | update loc operator prefixed argument =>
    exact judges_update (judges_expression argument ref) (judges_memberPlace argument ref)
  | missing =>
    rw [expression, Node.offences_missing]
    exact .entered (fun _ _ _ => .fail .malformed) _
  | _ =>
    simp only [expression, Node.offences]
    exact .entered (fun s _ _ => (total_passOver _ _ _ s).before fun _ _ _ => .pure) _

theorem judges_memberPlace (node : Node) (ref : Value) :
    Judges ref (if node.isMember then node.offences else []) (memberPlace node ref) := by
  cases node with
  | member loc obj prop computed optional =>
    intro s code hs
    simp only [memberPlace, Node.isMember, if_true]
    exact (judges_placeOf (judges_expression obj ref) (judges_expression prop ref) optional hs).map
  | _ =>
    intro s code _
    simp only [memberPlace, Node.isMember, Bool.false_eq_true, if_false]
    exact .pure

theorem judges_arguments (i : Nat) (nodes : List Node) (ref : Value) :
    Judges ref (Node.argumentOffences nodes) (arguments i nodes ref) := by
  cases nodes with
  | nil =>
    rw [arguments, Node.argumentOffences_nil]
    exact fun _ _ _ => .pure
  | cons node rest =>
    exact judges_arguments_cons i (judges_expression node ref) (judges_arguments (i + 1) rest ref)

theorem inspects_members (nodes : List Node) (x : Id) :
    Inspects (.ofScope x) x (Node.memberOffences nodes) (members nodes (.ofScope x)) := by
  cases nodes with
  | nil =>
    rw [members, Node.memberOffences_nil]
    exact fun _ _ _ _ => .pure
  | cons node rest =>
    cases node with
    | property loc key value kind computed method shorthand =>
      exact inspects_property (judges_expression key (.ofScope x))
        (judges_expression value (.ofScope x)) (inspects_members rest x)
    | _ =>
      simp only [members, Node.memberOffences]
      exact inspects_passOver (inspects_members rest x) _ _

theorem inspects_elements (i : Nat) (nodes : List Node) (x : Id) (ref : Value) :
    Inspects ref x (Node.elementOffences nodes) (elements i nodes (.ofScope x) ref) := by
  cases nodes with
  | nil =>
    rw [elements, Node.elementOffences_nil]
    exact fun _ _ _ _ => .pure
  | cons node rest =>
    have hrest := inspects_elements (i + 1) rest x ref
    have hnode := judges_expression node ref
    by_cases hm : node = .missing
    · subst hm
      simpa only [elements, Node.elementOffences] using hrest
    · exact inspects_element i hm hnode hrest

theorem decides_statement (node : Node) : Decides node.statementOffences (statement node) := by
  cases node with
  | variableDeclaration loc kind declarations =>
    exact decides_variableDeclaration fun x => scans_declarators declarations x
  | functionDeclaration loc id params body =>
    cases body with
    | blockStatement loc' nodes =>
      cases id with
      | identifier loc'' name => exact decides_functionDeclaration (decides_statements nodes)
      | _ => exact decides_badDeclaration (by simp)
    | _ => exact decides_badDeclaration (by simp)
  | returnStatement loc argument =>
    exact decides_returnStatement fun x => judges_expression argument (.ofScope x)
  | expressionStatement loc e =>
    exact decides_expressionStatement fun x => judges_expression e (.ofScope x)
  | blockStatement loc body => exact decides_blockStatement (decides_statements body)
  | emptyStatement loc =>
    simp only [statement, Node.statementOffences]
    exact Decides.entered (fun _ _ => .pure) _
  | missing =>
    rw [statement, Node.statementOffences_missing]
    exact Decides.entered (fun _ _ => .fail .malformed) _
  | _ =>
    simp only [statement, Node.statementOffences]
    exact Decides.entered (fun s _ => total_passOver _ _ _ s) _

theorem decides_statements (nodes : List Node) :
    Decides (Node.bodyOffences nodes) (statements nodes) := by
  cases nodes with
  | nil =>
    rw [statements, Node.bodyOffences_nil]
    exact fun _ _ => .pure
  | cons node rest =>
    simp only [statements, Node.bodyOffences]
    intro s hb
    refine (decides_statement node hb).bind fun _ s₁ h => ?_
    have hexec : Executes True _ _ := statement_executes node fun _ => trivial
    exact decides_statements rest ((hexec hb h).inBody hb)

theorem scans_declarators (nodes : List Node) (x : Id) :
    Scans x (Node.declaratorOffences nodes) (declarators nodes (.ofScope x)) := by
  cases nodes with
  | nil =>
    rw [declarators, Node.declaratorOffences_nil]
    exact fun _ _ _ _ => .pure
  | cons node rest =>
    cases node with
    | variableDeclarator loc id init =>
      exact scans_declarator (judges_expression init (.ofScope x)) (scans_declarators rest x)
    | _ =>
      simp only [declarators, Node.declaratorOffences]
      exact fun _ _ _ _ => .fail .malformed

end

theorem total_hostGlobals (names : List String) : Total (hostGlobals names) := by
  induction names with
  | nil => exact .pure
  | cons name rest ih => exact total_fresh.bind fun _ => ih.bind fun _ => .pure

theorem total_reportFunctions (functions : List Function) : Total (reportFunctions functions) := by
  induction functions with
  | nil => exact .pure
  | cons f rest ih => exact (total_report _).bind fun _ => ih

theorem answers_seedGlobals (hb : s.frame.blocks ≠ []) (scope : Id) (loc : Location)
    (globals : List Global) : Answers (seedGlobals scope loc globals) s [] := by
  induction globals generalizing s with
  | nil => exact .pure
  | cons g rest ih =>
    refine .andThen (fresh_eq s) (.andThen (a := ()) rfl ?_)
    refine Answers.before (answers_append ?_ _) fun _ s₁ happend => ?_
    · exact hb
    · obtain ⟨-, rfl⟩ := append_eq_ok.mp happend
      exact ih (Frame.blocks_extend_ne_nil hb _)

theorem answers_program (file : String) (hosts : List String) (node : Node) :
    Answers (program hosts node) (.start file) node.programOffences := by
  cases node with
  | program loc sourceType body =>
    -- the global object, its block and its first field
    refine .andThen rfl (.andThen (a := ()) rfl (.andThen (a := ()) rfl (.andThen (a := ()) rfl
      (.andThen rfl (.andThen (a := ()) rfl (.andThen (a := ()) rfl ?_))))))
    have hs := fun log => (Seeded.start file loc log).seed (·.variableOf "globalThis") (.ofScope 0)
      "globalThis" ⟨trivial, .inr rfl, Int.ofNat_lt.mpr Nat.two_pos⟩ (.inr (.inl rfl))
    refine (total_hostGlobals hosts _).before fun globals s₁ hhosts => ?_
    obtain ⟨hosted, hs₁, -⟩ := hostGlobals_seeded (hs _) hhosts
    have hb : s₁.frame.blocks ≠ [] := by simp [hs₁.blocks]
    refine (answers_seedGlobals hb _ loc _).before fun _ s₂ hseeds => ?_
    obtain ⟨hosted, prologue, hs₂, -⟩ := seeded_globals (hs _) hhosts hseeds
    have hs₂ := hs₂.logged (.event (.processFunction mainName 0 body.length))
    have hready := hs₂.enterMain_eq ▸ hs₂.ready
    have hbody := decides_statements body
    refine .andThen (a := s₂) rfl ?_
    refine (answers_function hready (executes_statements body) hbody).closing fun _ s₃ _ => ?_
    refine (total_popScope s₃).before fun _ s₄ _ => .andThen (a := s₄) rfl ?_
    exact (total_reportFunctions _ s₄).before fun _ _ _ => .pure
  | _ => exact .fail .malformed

end Lower

/-- Lowering succeeds exactly on the trees without offences, whatever the file and the names
that the host defines; otherwise the first offence is the cause of its failure. -/
theorem lower_refuses (file : String) (hosts : List String) (node : Node) :
    ((∃ functions, (lower file hosts node).1 = .ok functions) ↔ node.programOffences = []) ∧
      (lower file hosts node).1.cause? = node.programOffences.head?.map Offence.cause := by
  have hanswers := Lower.answers_program file hosts node
  have hcause : (lower file hosts node).1.cause? =
      node.programOffences.head?.map Offence.cause := by
    rw [← hanswers, lower]
    cases Lower.program hosts node (.start file) <;> rfl
  refine ⟨?_, hcause⟩
  cases hl : (lower file hosts node).1 with
  | ok functions =>
    rw [hl] at hcause
    cases ho : node.programOffences with
    | nil => simp
    | cons o rest => simp [ho, Outcome.cause?] at hcause
  | error failure =>
    rw [hl] at hcause
    cases ho : node.programOffences with
    | nil => simp [ho, Outcome.cause?] at hcause
    | cons o rest => simp

end ScopeIR
