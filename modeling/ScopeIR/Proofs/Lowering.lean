import Mathlib.Data.List.Basic
import ScopeIR.Proofs.Bodies

/-! Every lowering is a run, by induction on the syntax. What runs do then holds of all
lowerings, without another look at the syntax. -/
namespace ScopeIR

variable {loose : Prop} {s s' : Compilation} {code : List Instruction} {ref : Value}

/-- Trees that name the parent field are allowed only where links are loose. -/
def Quiet (loose : Prop) (node : Node) : Prop := node.Mentions parentName → loose

namespace Quiet

theorem child {node other : Node} (h : Quiet loose node) (slot : String)
    (hm : (slot, other) ∈ node.children) : Quiet loose other :=
  fun ho => h (.child hm ho)

theorem item {node : Node} (h : Quiet loose node) (slot : String) {nodes : List Node}
    (hm : Node.children.items slot nodes ⊆ node.children) : ∀ other ∈ nodes, Quiet loose other := by
  intro other ho
  obtain ⟨i, hi⟩ := List.mem_iff_getElem?.mp ho
  have hz : (other, i) ∈ nodes.zipIdx := List.mem_zipIdx_iff_getElem?.mpr hi
  exact h.child _ (hm (List.mem_map.mpr ⟨(other, i), hz, rfl⟩))

end Quiet

def Locates (loose : Prop) (ref : Value) (node : Node) (step : Lower (Option Place)) : Prop :=
  ∀ ⦃s s' : Compilation⦄ ⦃code : List Instruction⦄, Sited ref ⟨s, code⟩ →
    (∀ ⦃place : Place⦄, step s = .ok (some place) s' → node.isMember ∧
      Run loose ⟨s, code⟩ { functions := node.functions } ⟨s', code ++ place.code⟩ ∧
      Lower.Holds ⟨s', code ++ place.code⟩ place) ∧
    (step s = .ok none s' → node.isMember = false ∧ s = s')

namespace Lower

/-! Expressions: the whole is a run if its parts are. -/

theorem assignment_evaluates {loc : Location} {operator : String} {left right : Node}
    (hq : Quiet loose left)
    (hleft : Evaluates loose ref { functions := left.functions } (expression left ref))
    (hplace : Locates loose ref left (memberPlace left ref))
    (hright : Evaluates loose ref { functions := right.functions } (expression right ref)) :
    Evaluates loose ref { functions := (Node.assignment loc operator left right).functions }
      (expression (.assignment loc operator left right) ref) := by
  rw [expression, Node.functions]
  refine .entered ?_ _
  intro s s' code e hs h
  split at h
  · simp at h
  simp only [bind_eq_ok, within_eq_ok] at h
  obtain ⟨r, s₁, hr, h⟩ := h
  obtain ⟨hrun, hy⟩ := hright hs hr
  have hs₁ := hrun.sited hs
  cases hop : (compoundPart operator).isEmpty with
  | true =>
    simp only [hop, if_true, bind_eq_ok] at h
    obtain ⟨_, s₁, henter, place?, s₂, hp, h⟩ := h
    have hstart : Run loose _ _ _ := enter_run (code ++ r.code) henter
    have hy := hstart.extends.yields hs₁.ready hy
    have hs₁ := hstart.sited hs₁
    have hrun := hrun.andThen hstart
    cases place? with
    | some place =>
      simp only [bind_eq_ok, pure_eq_ok] at h
      obtain ⟨write, s₃, hwrite, _, _, ⟨rfl, rfl⟩, rfl, rfl⟩ := h
      obtain ⟨hm, hrun₁, hholds⟩ := (hplace hs₁).1 hp
      have hy₁ := hrun₁.extends.yields hs₁.ready hy
      have hstore : Run loose _ _ _ := store_run (hrun₁.ready hs₁.ready) hholds hy₁ hwrite
      have hrun₂ := hrun₁.andThen hstore
      have hy₂ := hrun₂.extends.yields hs₁.ready hy
      simp only [hm, Bool.true_or, if_true]
      rw [List.append_assoc, List.append_assoc] at hrun₂ hy₂
      exact ⟨hrun.trans hrun₂, hy₂⟩
    | none =>
      obtain ⟨hm, rfl⟩ := (hplace hs₁).2 hp
      simp only [bind_eq_ok, pure_eq_ok] at h
      obtain ⟨write, s₃, hwrite, rfl, rfl⟩ := h
      have hrun₁ : Run loose _ _ _ := assignTarget_run hs₁ hq hy hwrite
      have hy₁ := hrun₁.extends.yields hs₁.ready hy
      rw [List.append_assoc] at hrun₁ hy₁
      simpa [hm, hop] using ⟨hrun.andThen hrun₁, hy₁⟩
  | false =>
    simp only [hop, Bool.false_eq_true, if_false, bind_eq_ok, within_eq_ok, pure_eq_ok] at h
    obtain ⟨m, s₂, ⟨_, s₁, henter, place?, s₃, hp, h⟩, rfl, rfl⟩ := h
    have hstart : Run loose _ _ _ := enter_run (code ++ r.code) henter
    have hy := hstart.extends.yields hs₁.ready hy
    have hs₁ := hstart.sited hs₁
    have hrun := hrun.andThen hstart
    simp only [Bool.not_false, Bool.or_true, if_true]
    cases place? with
    | some place =>
      obtain ⟨-, hrun₁, hholds⟩ := (hplace hs₁).1 hp
      have hready := (hrun₁.sited hs₁).ready
      have hy₁ := hrun₁.extends.yields hs₁.ready hy
      obtain ⟨hrun₂, -, hnew⟩ :=
        modifyPlace_run (hrun₁.sited hs₁) hholds (compoundStep_combines hready hy₁) h
      have hrun₃ := hrun₁.andThen hrun₂
      rw [List.append_assoc] at hrun₃ hnew
      exact ⟨hrun.trans hrun₃, hnew⟩
    | none =>
      obtain ⟨-, rfl⟩ := (hplace hs₁).2 hp
      obtain ⟨hrun₁, -, hnew⟩ :=
        modifyTarget_run hs₁ hq hleft (compoundStep_combines hs₁.ready hy) h
      rw [List.append_assoc] at hrun₁ hnew
      exact ⟨hrun.trans hrun₁, hnew⟩

theorem member_locates {loc : Location} {obj prop : Node} {computed optional : Bool}
    (ho : Evaluates loose ref { functions := obj.functions } (expression obj ref))
    (hp : Evaluates loose ref { functions := prop.functions } (expression prop ref)) :
    Locates loose ref (.member loc obj prop computed optional)
      (memberPlace (.member loc obj prop computed optional) ref) := by
  intro s s' code hs
  rw [memberPlace, Node.functions]
  refine ⟨fun place h => ?_, fun h => ?_⟩
  · rw [map_eq_ok] at h
    obtain ⟨_, h, ⟨⟩⟩ := h
    exact ⟨rfl, placeOf_run hs ho hp h⟩
  · simp at h

theorem member_evaluates {loc : Location} {obj prop : Node} {computed optional : Bool}
    (hplace : Locates loose ref (.member loc obj prop computed optional)
      (memberPlace (.member loc obj prop computed optional) ref)) :
    Evaluates loose ref { functions := (Node.member loc obj prop computed optional).functions }
      (expression (.member loc obj prop computed optional) ref) := by
  rw [expression]
  refine .entered ?_ _
  intro s s' code e hs h
  simp only [bind_eq_ok, pure_eq_ok] at h
  obtain ⟨place, s₁, hp, e, s₂, hload, rfl, rfl⟩ := h
  have hmap : memberPlace (.member loc obj prop computed optional) ref s = .ok (some place) s₁ := by
    rw [memberPlace, map_eq_ok]
    exact ⟨place, hp, rfl⟩
  obtain ⟨-, hrun, hholds⟩ := (hplace hs).1 hmap
  obtain ⟨hrun₁, hy⟩ : Run loose ⟨s₁, code ++ place.code⟩ {} _ ∧ _ :=
    load_run (hrun.sited hs) hholds hload
  simp only [← List.append_assoc]
  exact ⟨hrun.andThen hrun₁, hy⟩

theorem update_evaluates {loc : Location} {operator : String} {prefixed : Bool} {argument : Node}
    (hq : Quiet loose argument)
    (harg : Evaluates loose ref { functions := argument.functions } (expression argument ref))
    (hplace : Locates loose ref argument (memberPlace argument ref)) :
    Evaluates loose ref { functions := (Node.update loc operator prefixed argument).functions }
      (expression (.update loc operator prefixed argument) ref) := by
  rw [expression, Node.functions]
  refine .entered ?_ _
  intro s s' code e hs h
  cases hwrong : argument.isMissing || operator.utf8ByteSize != 2 with
  | true => simp [hwrong] at h
  | false =>
  simp only [hwrong, Bool.false_eq_true, if_false, bind_eq_ok, within_eq_ok, pure_eq_ok] at h
  obtain ⟨m, s₁, ⟨_, s₀, henter, place?, s₂, hp, h⟩, rfl, rfl⟩ := h
  have hstart : Run loose ⟨s, code⟩ {} ⟨s₀, code⟩ := enter_run code henter
  have hs := hstart.sited hs
  have hm : Run loose ⟨s₀, code⟩ { functions := argument.functions } ⟨s₁, code ++ m.code⟩ ∧
      Draft.Yields ⟨s₁, code ++ m.code⟩ m.old ∧ Draft.Yields ⟨s₁, code ++ m.code⟩ m.new := by
    cases place? with
    | some place =>
      obtain ⟨-, hrun, hholds⟩ := (hplace hs).1 hp
      exact (modifyPlace_run (hrun.sited hs) hholds updateStep_combines h).imp_left hrun.andThen
    | none =>
      obtain ⟨-, rfl⟩ := (hplace hs).2 hp
      exact modifyTarget_run hs hq harg updateStep_combines h
  obtain ⟨hrun, hold, hnew⟩ := hm
  refine ⟨hstart.trans hrun, ?_⟩
  split
  · exact hnew
  · exact hold

def IsObject (d : Draft) (x : Id) : Prop := x ∈ d.defined ∧ d.state.scopes.kind? x = some .object

theorem IsObject.run {d d' : Draft} {w : Work} {x : Int} (hx : IsObject d x)
    (h : Run loose d w d') (hr : Ready d) : IsObject d' x :=
  ⟨h.extends.defined hr.blocks hx.1, (h.extends.kinds x (hr.defined x hx.1)).trans hx.2⟩

def Fills (loose : Prop) (ref : Value) (x : Id) (fs : List FunctionSource)
    (step : Lower (List Instruction)) : Prop :=
  ∀ ⦃s s' : Compilation⦄ ⦃code added : List Instruction⦄, Sited ref ⟨s, code⟩ →
    IsObject ⟨s, code⟩ x → step s = .ok added s' →
      Run loose ⟨s, code⟩ { functions := fs } ⟨s', code ++ added⟩

def withObject (s : Compilation) : Compilation :=
  { s with
    scopes := (s.scopes.create .object).2
    log := .event (.createScope s.scopes.next .object) :: s.log }

theorem withObject_run (s : Compilation) (code : List Instruction) (loc : Location) :
    Run loose ⟨s, code⟩ {} ⟨withObject s, code ++ [.apply loc s.scopes.next .newObject []]⟩ :=
  (Run.create s code loc .object s.scopes.literals (.inl rfl)).trans (.report _ _ _)

theorem isObject_withObject (s : Compilation) (code : List Instruction) (loc : Location) :
    IsObject ⟨withObject s, code ++ [.apply loc s.scopes.next .newObject []]⟩ s.scopes.next := by
  refine ⟨Draft.mem_defined.mpr (.inr ⟨.apply loc s.scopes.next .newObject [], ?_, rfl⟩), ?_⟩
  · simp [Draft.body]
  · exact (s.scopes.kind?_create .object s.scopes.next).trans (if_pos rfl)

theorem IsObject.yields {d : Draft} {x : Id} (h : IsObject d x) (hr : Ready d) :
    d.Yields (.ofScope x) :=
  ⟨.inr h.1, trivial, .inl h.2, hr.defined x h.1⟩

theorem array_evaluates {loc : Location} {items : List Node}
    (helements : ∀ x, Fills loose ref x (Node.allFunctions items)
      (elements 0 items (.ofScope x) ref)) :
    Evaluates loose ref { functions := (Node.array loc items).functions }
      (expression (.array loc items) ref) := by
  rw [expression, Node.functions]
  refine .entered ?_ _
  intro s s' code e hs h
  simp only [bind_eq_ok, createScope_eq_ok, pure_eq_ok] at h
  obtain ⟨_, _, ⟨rfl, rfl⟩, added, s₁, h, rfl, rfl⟩ := h
  have hrun : Run loose _ _ _ := withObject_run s code loc
  have hobject := isObject_withObject s code loc
  have hfill := helements _ (hrun.sited hs) hobject h
  have hfilled := hobject.run hfill (hrun.ready hs.ready)
  rw [List.append_assoc] at hfill hfilled
  have hall := hrun.trans hfill
  exact ⟨hall, hfilled.yields (hall.ready hs.ready)⟩

theorem sited_push {x : Id} (hr : Ready ⟨s, code⟩) (hx : IsObject ⟨s, code⟩ x) (note : Note) :
    Sited (.ofScope x) ⟨Compilation.logged { s with scopes := s.scopes.push x } note, code⟩ ∧
      IsObject ⟨Compilation.logged { s with scopes := s.scopes.push x } note, code⟩ x := by
  have hlog : Run True _ {} ⟨_, code⟩ := .report { s with scopes := s.scopes.push x } code note
  exact ⟨hlog.sited ⟨hr.push hx.2, x, _, rfl, rfl⟩, hx.1, (s.scopes.kind?_push x x).trans hx.2⟩

theorem object_run {x : Id} {fs : List FunctionSource} {step : Lower (List Instruction)}
    {note : Note} {s₁ : Compilation} {added : List Instruction} {u : Unit}
    (hr : Ready ⟨s, code⟩) (hx : IsObject ⟨s, code⟩ x)
    (hstep : Fills loose (.ofScope x) x fs step)
    (h : step (Compilation.logged { s with scopes := s.scopes.push x } note) = .ok added s₁)
    (hpop : popScope s₁ = .ok u s') :
    Run loose ⟨s, code⟩ { functions := fs } ⟨s', code ++ added⟩ := by
  have hlog : Run loose _ {} ⟨_, code⟩ := .report { s with scopes := s.scopes.push x } code note
  obtain ⟨hsited, hobject⟩ := sited_push hr hx note
  have hinner := hlog.trans (hstep hsited hobject h)
  have hlt : x < (s.scopes.next : Int) := hr.defined x hx.1
  obtain rfl := popScope_eq_ok hpop hinner.extends.stack
    ((hinner.extends.kinds x hlt).trans hobject.2)
  exact (Run.object hx.2 hinner).andThen (.report _ _ _)

theorem object_evaluates {loc : Location} {properties : List Node}
    (hmembers : ∀ x, Fills loose (.ofScope x) x (Node.memberFunctions properties)
      (members properties (.ofScope x))) :
    Evaluates loose ref { functions := (Node.object loc properties).functions }
      (expression (.object loc properties) ref) := by
  rw [expression, Node.functions]
  refine .entered ?_ _
  intro s s' code e hs h
  simp only [bind_eq_ok, createScope_eq_ok, pushScope_eq_ok, pure_eq_ok] at h
  obtain ⟨_, _, ⟨rfl, rfl⟩, _, _, rfl, added, s₁, h, _, s₂, hpop, rfl, rfl⟩ := h
  have hrun : Run loose ⟨s, code⟩ {} _ := withObject_run s code loc
  have hobject := isObject_withObject s code loc
  have hfill := object_run (hrun.ready hs.ready) hobject (hmembers s.scopes.next) h hpop
  have hfilled := hobject.run hfill (hrun.ready hs.ready)
  rw [List.append_assoc] at hfill hfilled
  have hall := hrun.trans hfill
  exact ⟨hall, hfilled.yields (hall.ready hs.ready)⟩

theorem fail_evaluates {w : Work} (context : List String) (cause : Cause) :
    Evaluates loose ref w (fail context cause) := by
  intro s s' code e _ h
  simp at h

theorem fail_executes {w : Work} (context : List String) (cause : Cause) :
    Executes loose w (fail context cause) := by
  intro s s' u _ h
  simp at h

def Declares (loose : Prop) (x : Id) (fs : List FunctionSource)
    (step : Lower (List Instruction)) : Prop :=
  ∀ ⦃s s' : Compilation⦄ ⦃code added : List Instruction⦄, Sited (.ofScope x) ⟨s, code⟩ →
    x ∈ Draft.defined ⟨s, code⟩ → step s = .ok added s' →
      Run loose ⟨s, code⟩ { functions := fs } ⟨s', code ++ added⟩

theorem variableDeclaration_executes {loc : Location} {kind : String} {declarations : List Node}
    (h : ∀ x, Declares loose x (Node.declaratorFunctions declarations)
      (declarators declarations (.ofScope x))) :
    Executes loose (Node.work (.variableDeclaration loc kind declarations))
      (statement (.variableDeclaration loc kind declarations)) := by
  simp only [statement, Node.work, Node.ofStatement, Node.returns]
  refine Executes.entered ?_ _
  intro s s' u hb hstep
  simp only [bind_eq_ok] at hstep
  obtain ⟨scope, _, hscope, added, s₁, hadded, hemit⟩ := hstep
  obtain ⟨rfl, hs, hown, -⟩ := currentScope_eq_ok hb hscope
  have hrun := h scope hs hown hadded
  exact hrun.andThen (emit_run (hrun.inBody hb) hemit)

theorem expressionStatement_executes {loc : Location} {e : Node}
    (h : ∀ x, Evaluates loose (.ofScope x) { functions := e.functions }
      (expression e (.ofScope x))) :
    Executes loose (Node.work (.expressionStatement loc e))
      (statement (.expressionStatement loc e)) := by
  by_cases hm : e = .missing
  · subst hm
    rw [statement]
    exact Executes.entered (fail_executes _ _) _
  rw [statement]
  · refine Executes.entered ?_ _
    intro s s' u hb hstep
    simp only [bind_eq_ok] at hstep
    obtain ⟨scope, _, hscope, lowered, s₁, he, hemit⟩ := hstep
    obtain ⟨rfl, hs, -⟩ := currentScope_eq_ok hb hscope
    obtain ⟨hrun, -⟩ := h scope hs he
    simpa [Node.work, Node.ofStatement, Node.returns, Node.takenNames] using
      hrun.andThen (emit_run (hrun.inBody hb) hemit)
  · exact hm

theorem returnStatement_executes {loc : Location} {argument : Node}
    (h : ∀ x, Evaluates loose (.ofScope x) { functions := argument.functions }
      (expression argument (.ofScope x))) :
    Executes loose (Node.work (.returnStatement loc argument))
      (statement (.returnStatement loc argument)) := by
  simp only [Node.work, Node.ofStatement, Node.returns]
  by_cases hm : argument = .missing
  · subst hm
    have hf : Node.missing.functions = [] := by simp [Node.functions]
    rw [statement, hf]
    refine Executes.entered (fun s s' u hb hstep => ?_) _
    rw [← List.nil_append [_]] at hstep
    exact emit_ret_run hb (Draft.yields_null _) hstep
  rw [statement]
  · refine Executes.entered ?_ _
    intro s s' u hb hstep
    simp only [bind_eq_ok] at hstep
    obtain ⟨scope, _, hscope, hstep⟩ := hstep
    obtain ⟨rfl, hs, -⟩ := currentScope_eq_ok hb hscope
    exact returnValue_run hb hs (h scope) hstep
  · exact hm

theorem badDeclaration_executes {loc : Location} {id body : Node} {params : List Node} {w : Work}
    (h : ∀ loc₁ name loc₂ nodes, id = .identifier loc₁ name → body ≠ .blockStatement loc₂ nodes) :
    Executes loose w (statement (.functionDeclaration loc id params body)) := by
  rw [statement]
  · exact Executes.entered (fail_executes _ _) _
  · exact h

theorem functionDeclaration_executes {loc loc₁ loc₂ : Location} {name : String}
    {params body : List Node} (hname : name = parentName → loose)
    (hparams : ∀ node ∈ params, Quiet loose node)
    (hbody : Executes loose (Node.allWork body) (statements body)) :
    Executes loose (Node.work (.functionDeclaration loc (.identifier loc₁ name) params
        (.blockStatement loc₂ body)))
      (statement (.functionDeclaration loc (.identifier loc₁ name) params
        (.blockStatement loc₂ body))) := by
  simp only [Node.work, Node.ofStatement, Node.returns, Node.takenNames]
  rw [statement]
  refine Executes.entered ?_ _
  intro s s' u hb h
  simp only [nestedName, addClosure, modifyFrame, declare, assign, modifyScope, bind_eq_ok,
    functionName_eq_ok, fresh_eq_ok, modify_eq_ok, pure_eq_ok] at h
  obtain ⟨scope, _, hscope, _, s₁, hdeclare, _, s₂, ⟨rfl, hs₂⟩, _, _, ⟨rfl, rfl⟩, _, _,
    ⟨_, _, ⟨rfl, rfl⟩, rfl, rfl⟩, link, s₃, hfun, _, s₄, hclosure, _, s₅, ⟨rfl, hs₅⟩, _, s₆, hemit,
    hassign⟩ := h
  obtain ⟨rfl, -, hown, -, -⟩ := currentScope_eq_ok hb hscope
  have hrun₁ : Run loose ⟨s, []⟩ {} ⟨s₁, []⟩ := hdeclare ▸ .declare s [] scope name
  have hb₁ := hrun₁.inBody hb
  rw [← hs₂] at hfun
  have hfun : function (s₁.nameFor (some name)) params body.length loc [] (statements body)
      s₁.spend = .ok link s₃ := hfun
  obtain ⟨hrun₂, hy⟩ := function_run hb₁.ready hparams hbody (fun h => hbody.settles h) hfun
  have hstate : { s₃ with frame := s₃.frame.addClosure s₁.scopes.next link } = s₄ := hclosure
  rw [hstate, List.nil_append] at hrun₂ hy
  have hown₂ := (hrun₁.trans hrun₂).extends.defined hb.ready.blocks hown
  have hb₂ := hrun₂.inBody hb₁
  have hrun₃ : Run loose ⟨s₄, [.apply loc s₁.scopes.next .newObject []]⟩ {}
      ⟨s₅, [.apply loc s₁.scopes.next .newObject [], .apply loc s₄.scopes.next (.setField name)
        [.ofScope scope, .func s₁.scopes.next (some link)]]⟩ := by
    subst hs₅
    refine .call s₄ _ loc _ _ (.setField _ _ _) (fun v hv => ?_) ?_
    · simp only [List.mem_cons, List.not_mem_nil, or_false] at hv
      rcases hv with rfl | rfl
      · exact ⟨.inl (.inr hown₂), trivial, hb₂.ready.defined _ hown₂⟩
      · exact hy.usable
    · rintro ⟨_, _, hc, _⟩
      exact hname (FunctionDefinition.setField_inj hc)
  have hrun₄ : Run loose _ _ _ := emit_run (hrun₃.inBody hb₂) hemit
  have hrun₅ := hrun₃.trans hrun₄
  have hy₅ := hrun₅.extends.yields hb₂.ready hy
  have hassign : Run loose ⟨s₆, []⟩ {} ⟨s', []⟩ := hassign ▸
    .assign s₆ [] scope name _ hy₅.has hy₅.tame
      (.inl (hrun₅.extends.defined hb₂.ready.blocks hown₂))
  exact hrun₁.trans (hrun₂.andThen (hrun₅.trans hassign))

theorem arguments_nil (i : Nat) : Passes loose ref [] (arguments i [] ref) := by
  intro s s' code added values hs h
  simp only [arguments, pure_eq_ok, Prod.mk.injEq] at h
  obtain ⟨⟨rfl, rfl⟩, rfl⟩ := h
  simpa using Run.refl _

theorem arguments_cons {node : Node} {rest : List Node} (i : Nat)
    (hnode : Evaluates loose ref { functions := node.functions } (expression node ref))
    (hrest : Passes loose ref (Node.allFunctions rest) (arguments (i + 1) rest ref)) :
    Passes loose ref (Node.allFunctions (node :: rest)) (arguments i (node :: rest) ref) := by
  rw [Node.allFunctions]
  intro s s' code added values hs h
  simp only [arguments, bind_eq_ok] at h
  obtain ⟨_, s₀, henter, known, s₁, hknown, h⟩ := h
  have hstart : Run loose ⟨s, code⟩ {} ⟨s₀, code⟩ := enter_run code henter
  have hs := hstart.sited hs
  obtain ⟨rfl, husable⟩ := knownArgument_eq_ok hs hknown
  cases known with
  | some value =>
    simp only [bind_eq_ok, pure_eq_ok, Prod.exists, Prod.mk.injEq] at h
    obtain ⟨_, _, ⟨rfl, rfl⟩, added, values, _, hargs, ⟨rfl, rfl⟩, rfl⟩ := h
    obtain ⟨hnone, hvalue⟩ := husable value rfl
    obtain ⟨hrun, hvalues⟩ := hrest hs hargs
    rw [hnone]
    refine ⟨hstart.trans hrun, fun v hv => ?_⟩
    rcases List.mem_cons.mp hv with rfl | hv
    · exact hrun.extends.usable hs.ready hvalue
    · exact hvalues v hv
  | none =>
    simp only [bind_eq_ok, within_eq_ok, pure_eq_ok, Prod.exists, Prod.mk.injEq] at h
    obtain ⟨e, s₁, he, added, values, _, hargs, ⟨rfl, rfl⟩, rfl⟩ := h
    obtain ⟨hrun, hy⟩ := hnode hs he
    obtain ⟨hrun₁, hvalues⟩ := hrest (hrun.sited hs) hargs
    refine ⟨hstart.trans (hrun.append hrun₁), fun v hv => ?_⟩
    rw [← List.append_assoc]
    rcases List.mem_cons.mp hv with rfl | hv
    · exact hrun₁.extends.usable (hrun.sited hs).ready hy.usable
    · exact hvalues v hv

theorem fills_nil {x : Id} {fs : List FunctionSource} {step : Lower (List Instruction)}
    (h : step = pure []) (hfs : fs = []) : Fills loose ref x fs step := by
  subst h hfs
  intro s s' code added _ _ h
  simp only [pure_eq_ok] at h
  obtain ⟨rfl, rfl⟩ := h
  rw [List.append_nil]
  exact .refl _

theorem passOver_fills {x : Id} {fs : List FunctionSource} {step : Lower (List Instruction)}
    (h : Fills loose ref x fs step) (type : String) (loc : Location) :
    Fills loose ref x fs (do passOver .objectMember type loc; step) := by
  intro s s' code added hs hx hstep
  simp only [bind_eq_ok, passOver_eq_ok] at hstep
  obtain ⟨_, _, rfl, hstep⟩ := hstep
  have hreport : Run loose ⟨s, code⟩ {} _ :=
    .report s code (.event (.unsupported .objectMember type loc s.frame.definition.name))
  exact hreport.trans (h (hreport.sited hs) (hx.run hreport hs.ready) hstep)

theorem declareField_object_run {name : String} {value : Value} {x : Id} {loc : Location}
    {added : List Instruction} (hr : Ready ⟨s, code⟩) (hx : IsObject ⟨s, code⟩ x)
    (hv : Draft.Yields ⟨s, code⟩ value)
    (h : declareField name value (.ofScope x) loc s = .ok added s') :
    Run loose ⟨s, code⟩ {} ⟨s', code ++ added⟩ :=
  have hy := hx.yields hr
  declareField_run hy.usable (fun _ hscope => .inr (target_of_tame hy.tame.scope hscope))
    (fun hl => absurd hl (not_linksScope hy.tame.scope)) hv h

theorem setFieldDynamic_run {x : Id} {key value : Value} (hr : Ready ⟨s, code⟩)
    (hx : IsObject ⟨s, code⟩ x) (loc : Location) (hk : Draft.Usable ⟨s, code⟩ key)
    (hv : Draft.Usable ⟨s, code⟩ value) :
    Run loose ⟨s, code⟩ {} ⟨s.spend,
      code ++ [.apply loc s.scopes.next .setFieldDynamic [.ofScope x, key, value]]⟩ :=
  (call_run hr (.setFieldDynamic _ _ _) (hx.yields hr) (by simpa using ⟨hk, hv⟩)).1

theorem members_property {loc : Location} {key value : Node} {kind : String}
    {computed method shorthand : Bool} {rest : List Node} {x : Id}
    (hkey : Evaluates loose (.ofScope x) { functions := key.functions }
      (expression key (.ofScope x)))
    (hvalue : Evaluates loose (.ofScope x) { functions := value.functions }
      (expression value (.ofScope x)))
    (hrest : Fills loose (.ofScope x) x (Node.memberFunctions rest) (members rest (.ofScope x))) :
    Fills loose (.ofScope x) x
      (Node.memberFunctions (.property loc key value kind computed method shorthand :: rest))
      (members (.property loc key value kind computed method shorthand :: rest) (.ofScope x)) := by
  rw [members, Node.memberFunctions]
  intro s s' code added hs hx h
  cases hmissing : key.isMissing || value.isMissing with
  | true => simp [hmissing] at h
  | false =>
  cases hplaceholder : value.isPlaceholder with
  | true =>
    cases hn : key.staticName? computed <;> simp [hmissing, hplaceholder, hn] at h
  | false =>
  simp only [hmissing, hplaceholder, Bool.false_eq_true, if_false] at h
  cases hn : key.staticName? computed with
  | some name =>
    simp only [hn, bind_eq_ok, within_eq_ok, pure_eq_ok] at h
    obtain ⟨v, s₁, hv, write, s₂, hwrite, _, _, ⟨rfl, rfl⟩, more, _, hmore, rfl, rfl⟩ := h
    obtain ⟨hrun, hy⟩ := hvalue hs hv
    have hstore : Run loose _ _ _ :=
      declareField_object_run (hrun.ready hs.ready) (hx.run hrun hs.ready) hy hwrite
    rw [List.append_assoc] at hstore
    have hone := hrun.andThen hstore
    exact hone.append (hrest (hone.sited hs) (hx.run hone hs.ready) hmore)
  | none =>
    simp only [hn, bind_eq_ok, within_eq_ok, fresh_eq_ok, pure_eq_ok] at h
    obtain ⟨k, s₁, hk, v, s₂, hv, _, _, ⟨rfl, rfl⟩, _, _, ⟨rfl, rfl⟩, more, _, hmore, rfl, rfl⟩ := h
    obtain ⟨hrun, hyk⟩ := hkey hs hk
    obtain ⟨hrun₁, hyv⟩ := hvalue (hrun.sited hs) hv
    have hpair := hrun.append hrun₁
    have hyk := hrun₁.extends.yields (hrun.ready hs.ready) hyk
    rw [List.append_assoc] at hyk hyv
    have hcall : Run loose _ _ _ := setFieldDynamic_run (hpair.ready hs.ready)
      (hx.run hpair hs.ready) loc hyk.usable hyv.usable
    rw [List.append_assoc] at hcall
    have hone := hpair.andThen hcall
    exact hone.append (hrest (hone.sited hs) (hx.run hone hs.ready) hmore)

theorem elements_cons {node : Node} {rest : List Node} {x : Id} (i : Nat)
    (hmissing : node ≠ .missing)
    (hnode : Evaluates loose ref { functions := node.functions } (expression node ref))
    (hrest : Fills loose ref x (Node.allFunctions rest) (elements (i + 1) rest (.ofScope x) ref)) :
    Fills loose ref x (Node.allFunctions (node :: rest))
      (elements i (node :: rest) (.ofScope x) ref) := by
  rw [elements, Node.allFunctions]
  · intro s s' code added hs hx h
    simp only [bind_eq_ok, within_eq_ok, pure_eq_ok] at h
    obtain ⟨v, s₁, hv, write, s₂, hwrite, more, _, hmore, rfl, rfl⟩ := h
    obtain ⟨hrun, hy⟩ := hnode hs hv
    have hstore : Run loose _ _ _ :=
      declareField_object_run (hrun.ready hs.ready) (hx.run hrun hs.ready) hy hwrite
    rw [List.append_assoc] at hstore
    have hone := hrun.andThen hstore
    exact hone.append (hrest (hone.sited hs) (hx.run hone hs.ready) hmore)
  · exact hmissing

theorem declarators_cons {loc : Location} {id init : Node} {rest : List Node} {x : Id}
    (hq : Quiet loose id)
    (hinit : Evaluates loose (.ofScope x) { functions := init.functions }
      (expression init (.ofScope x)))
    (hrest : Declares loose x (Node.declaratorFunctions rest) (declarators rest (.ofScope x))) :
    Declares loose x (Node.declaratorFunctions (.variableDeclarator loc id init :: rest))
      (declarators (.variableDeclarator loc id init :: rest) (.ofScope x)) := by
  rw [declarators, Node.declaratorFunctions]
  intro s s' code added hs hx h
  cases hmissing : id.isMissing with
  | true => simp [hmissing] at h
  | false =>
  have hbound : ∀ {e : Lowered} {s₁ s₂ : Compilation} {write more : List Instruction},
      Run loose ⟨s, code⟩ { functions := init.functions } ⟨s₁, code ++ e.code⟩ →
      Draft.Yields ⟨s₁, code ++ e.code⟩ e.value →
      declareTarget id e.value (.ofScope x) s₁ = .ok write s₂ →
      declarators rest (.ofScope x) s₂ = .ok more s' →
      Run loose ⟨s, code⟩ { functions := init.functions ++ Node.declaratorFunctions rest }
        ⟨s', code ++ (e.code ++ write ++ more)⟩ := by
    intro e s₁ s₂ write more hrun hy hwrite hmore
    have hstore : Run loose _ _ _ :=
      declareTarget_run (hrun.ready hs.ready) (hrun.extends.defined hs.ready.blocks hx) hq hy
        hwrite
    rw [List.append_assoc] at hstore
    have hone := hrun.andThen hstore
    exact hone.append (hrest (hone.sited hs) (hone.extends.defined hs.ready.blocks hx) hmore)
  cases hi : init.isMissing with
  | true =>
    simp only [hmissing, hi, Bool.false_eq_true, if_false, if_true, bind_eq_ok, pure_eq_ok] at h
    obtain ⟨_, _, ⟨rfl, rfl⟩, write, s₂, hwrite, more, _, hmore, rfl, rfl⟩ := h
    have hnone : init.functions = [] := by
      cases init with
      | missing => simp [Node.functions]
      | _ => cases hi
    refine hbound (e := { value := .null }) ?_ (Draft.yields_null _) hwrite hmore
    simpa [hnone] using Run.refl _
  | false =>
    simp only [hmissing, hi, Bool.false_eq_true, if_false, bind_eq_ok, within_eq_ok,
      pure_eq_ok] at h
    obtain ⟨e, s₁, he, write, s₂, hwrite, more, _, hmore, rfl, rfl⟩ := h
    obtain ⟨hrun, hy⟩ := hinit hs he
    exact hbound hrun hy hwrite hmore

theorem passOver_evaluates (type : String) (loc : Location) :
    Evaluates loose ref {} (do passOver .expression type loc; return { value := .null }) := by
  intro s s' code e _ h
  simp only [bind_eq_ok, passOver_eq_ok, pure_eq_ok] at h
  obtain ⟨_, _, rfl, rfl, rfl⟩ := h
  simp only [List.append_nil]
  exact ⟨.report s code _, Draft.yields_null _⟩

theorem arrowBody_executes {body : Node}
    (hbody : ∀ x, Evaluates loose (.ofScope x) { functions := body.functions }
      (expression body (.ofScope x))) :
    Executes loose { functions := body.functions, returns := true } (do
      enter (.statement "ReturnStatement")
      returnValue body.location (expression body (.ofScope (← currentScope)))) := by
  refine Executes.entered ?_ _
  intro s s' u hb h
  simp only [bind_eq_ok] at h
  obtain ⟨scope, _, hscope, h⟩ := h
  obtain ⟨rfl, hs, -⟩ := currentScope_eq_ok hb hscope
  exact returnValue_run hb hs (hbody scope) h

theorem arrowBody_settles {body : Node}
    (hbody : ∀ x, Evaluates loose (.ofScope x) { functions := body.functions }
      (expression body (.ofScope x))) :
    Settles (do
      enter (.statement "ReturnStatement")
      returnValue body.location (expression body (.ofScope (← currentScope)))) := by
  intro s s' u hb hshape h
  simp only [bind_eq_ok] at h
  obtain ⟨_, s₁, henter, scope, _, hscope, h⟩ := h
  have hrun : Run loose ⟨s, []⟩ {} ⟨s₁, []⟩ := enter_run [] henter
  obtain ⟨rfl, hs, -⟩ := currentScope_eq_ok (hrun.inBody hb) hscope
  exact returnValue_settles (hrun.inBody hb) hs (hbody scope) (hrun.shaped (by simp) hshape) h

theorem pair_evaluates {fs gs : List FunctionSource} {first second : Lower Lowered}
    (hf : Evaluates loose ref { functions := fs } first)
    (hs : Evaluates loose ref { functions := gs } second) :
    ∀ o ∈ [(fs, first), (gs, second)], Evaluates loose ref { functions := o.1 } o.2 := by
  simp [hf, hs]

theorem unary_form (op : String) (s : Compilation) (values : List Value)
    (h : values.length = 1) : CallForm s (.unaryOperator op) values := by
  obtain ⟨value, rfl⟩ := List.length_eq_one_iff.mp h
  exact .unary op value

theorem binary_form (op : String) (s : Compilation) (values : List Value)
    (h : values.length = 2) : CallForm s (.binaryOperator op) values := by
  obtain ⟨left, right, rfl⟩ := List.length_eq_two.mp h
  exact .binary op left right

theorem logical_form (op : String) (s : Compilation) (values : List Value)
    (h : values.length = 2) : CallForm s (.logicalOperator op) values := by
  obtain ⟨left, right, rfl⟩ := List.length_eq_two.mp h
  exact .logical op left right

theorem conditional_form (s : Compilation) (values : List Value) (h : values.length = 3) :
    CallForm s .conditional values := by
  obtain ⟨test, yes, no, rfl⟩ := List.length_eq_three.mp h
  exact .conditional test yes no

theorem arrow_evaluates {loc : Location} {params : List Node} {body : Node} {short : Bool}
    (hmissing : body ≠ .missing) (hblock : ∀ loc nodes, body ≠ .blockStatement loc nodes)
    (hparams : ∀ node ∈ params, Quiet loose node)
    (hbody : ∀ x, Evaluates loose (.ofScope x) { functions := body.functions }
      (expression body (.ofScope x))) :
    Evaluates loose ref { functions := (Node.arrowFunction loc params body short).functions }
      (expression (.arrowFunction loc params body short) ref) := by
  rw [expression, Node.functions]
  · exact .entered (functionObject_evaluates hparams (arrowBody_executes hbody)
      fun _ => arrowBody_settles hbody) _
  · exact hblock
  · exact hmissing
  · exact hblock

mutual

theorem expression_evaluates (node : Node) (ref : Value) (hq : Quiet loose node) :
    Evaluates loose ref { functions := node.functions } (expression node ref) := by
  cases node with
  | identifier loc name =>
    simp only [expression, Node.functions]
    exact .entered (fun _ _ _ _ hs h => identifier_run loose hs h) _
  | literal loc source =>
    simp only [expression, Node.functions]
    exact .entered (fun _ _ _ _ hs h => literal_run hs.ready h) _
  | assignment loc operator left right =>
    have hl : Quiet loose left := hq.child "left" (by simp [Node.children])
    have hr : Quiet loose right := hq.child "right" (by simp [Node.children])
    exact assignment_evaluates hl (expression_evaluates left ref hl)
      (memberPlace_locates left ref hl) (expression_evaluates right ref hr)
  | call loc callee args optional =>
    exact call_evaluates
      (arguments_passes 0 args ref (hq.item "arguments" (by simp [Node.children])))
      (expression_evaluates callee ref (hq.child "callee" (by simp [Node.children])))
  | member loc obj prop computed optional =>
    exact member_evaluates (member_locates
      (expression_evaluates obj ref (hq.child "object" (by simp [Node.children])))
      (expression_evaluates prop ref (hq.child "property" (by simp [Node.children]))))
  | chain loc inner =>
    simp only [expression, Node.functions]
    exact .entered
      (expression_evaluates inner ref (hq.child "expression" (by simp [Node.children]))) _
  | object loc properties =>
    exact object_evaluates fun x =>
      members_fills properties x (hq.item "properties" (by simp [Node.children]))
  | array loc items =>
    exact array_evaluates fun x =>
      elements_fills 0 items x ref (hq.item "elements" (by simp [Node.children]))
  | functionExpression loc id params body =>
    have hparams : ∀ node ∈ params, Quiet loose node := hq.item "params" (by simp [Node.children])
    have hbody : Quiet loose body := hq.child "body" (by simp [Node.children])
    cases body with
    | blockStatement loc' nodes =>
      simp only [expression, Node.functions]
      have hnodes := statements_executes nodes (hbody.item "body" (by simp [Node.children]))
      exact .entered (functionObject_evaluates hparams hnodes fun h => hnodes.settles h) _
    | _ =>
      simp only [expression]
      exact .entered (fail_evaluates _ _) _
  | arrowFunction loc params body short =>
    have hparams : ∀ node ∈ params, Quiet loose node := hq.item "params" (by simp [Node.children])
    have hbody : Quiet loose body := hq.child "body" (by simp [Node.children])
    cases body with
    | blockStatement loc' nodes =>
      simp only [expression, Node.functions]
      have hnodes := statements_executes nodes (hbody.item "body" (by simp [Node.children]))
      exact .entered (functionObject_evaluates hparams hnodes fun h => hnodes.settles h) _
    | missing =>
      simp only [expression]
      exact .entered (fail_evaluates _ _) _
    | _ =>
      exact arrow_evaluates (by simp) (by simp) hparams
        fun x => expression_evaluates _ (.ofScope x) hbody
  | unary loc operator short argument =>
    have ho : ∀ o ∈ [(argument.functions, expression argument ref)],
        Evaluates loose ref { functions := o.1 } o.2 := by
      simpa using expression_evaluates argument ref (hq.child "argument" (by simp [Node.children]))
    simp only [expression, Node.functions]
    exact .entered (by simpa using operation_evaluates loc _ _ ho (unary_form operator)) _
  | binary loc operator left right =>
    have ho := pair_evaluates
      (expression_evaluates left ref (hq.child "left" (by simp [Node.children])))
      (expression_evaluates right ref (hq.child "right" (by simp [Node.children])))
    simp only [expression, Node.functions]
    exact .entered (by simpa using operation_evaluates loc _ _ ho (binary_form operator)) _
  | logical loc operator left right =>
    have ho := pair_evaluates
      (expression_evaluates left ref (hq.child "left" (by simp [Node.children])))
      (expression_evaluates right ref (hq.child "right" (by simp [Node.children])))
    simp only [expression, Node.functions]
    exact .entered (by simpa using operation_evaluates loc _ _ ho (logical_form operator)) _
  | conditional loc test consequent alternate =>
    have ht := expression_evaluates test ref (hq.child "test" (by simp [Node.children]))
    have ho := pair_evaluates
      (expression_evaluates consequent ref (hq.child "consequent" (by simp [Node.children])))
      (expression_evaluates alternate ref (hq.child "alternate" (by simp [Node.children])))
    have hall : ∀ o ∈ (test.functions, expression test ref) :: _,
        Evaluates loose ref { functions := o.1 } o.2 := List.forall_mem_cons.mpr ⟨ht, ho⟩
    simp only [expression, Node.functions]
    exact .entered (by simpa using operation_evaluates loc _ _ hall conditional_form) _
  | update loc operator prefixed argument =>
    have ha : Quiet loose argument := hq.child "argument" (by simp [Node.children])
    exact update_evaluates ha (expression_evaluates argument ref ha)
      (memberPlace_locates argument ref ha)
  | missing =>
    simp only [expression]
    exact .entered (fail_evaluates _ _) _
  | _ =>
    simp only [expression, Node.functions]
    exact .entered (passOver_evaluates _ _) _

theorem memberPlace_locates (node : Node) (ref : Value) (hq : Quiet loose node) :
    Locates loose ref node (memberPlace node ref) := by
  cases node with
  | member loc obj prop computed optional =>
    exact member_locates
      (expression_evaluates obj ref (hq.child "object" (by simp [Node.children])))
      (expression_evaluates prop ref (hq.child "property" (by simp [Node.children])))
  | _ =>
    intro s s' code _
    simp only [memberPlace, pure_eq_ok]
    exact ⟨by simp, fun h => ⟨rfl, h.2⟩⟩

theorem arguments_passes (i : Nat) (nodes : List Node) (ref : Value)
    (hq : ∀ node ∈ nodes, Quiet loose node) :
    Passes loose ref (Node.allFunctions nodes) (arguments i nodes ref) := by
  cases nodes with
  | nil => exact arguments_nil i
  | cons node rest =>
    exact arguments_cons i (expression_evaluates node ref (hq node List.mem_cons_self))
      (arguments_passes (i + 1) rest ref fun n hn => hq n (List.mem_cons_of_mem _ hn))

theorem members_fills (nodes : List Node) (x : Id) (hq : ∀ node ∈ nodes, Quiet loose node) :
    Fills loose (.ofScope x) x (Node.memberFunctions nodes) (members nodes (.ofScope x)) := by
  cases nodes with
  | nil => exact fills_nil (by simp [members]) (by simp [Node.memberFunctions])
  | cons node rest =>
    have hnode := hq node List.mem_cons_self
    have hrest := members_fills rest x fun n hn => hq n (List.mem_cons_of_mem _ hn)
    cases node with
    | property loc key value kind computed method shorthand =>
      exact members_property
        (expression_evaluates key (.ofScope x) (hnode.child "key" (by simp [Node.children])))
        (expression_evaluates value (.ofScope x) (hnode.child "value" (by simp [Node.children])))
        hrest
    | _ =>
      simp only [members, Node.memberFunctions]
      exact passOver_fills hrest _ _

theorem elements_fills (i : Nat) (nodes : List Node) (x : Id) (ref : Value)
    (hq : ∀ node ∈ nodes, Quiet loose node) :
    Fills loose ref x (Node.allFunctions nodes) (elements i nodes (.ofScope x) ref) := by
  cases nodes with
  | nil => exact fills_nil (by simp [elements]) (by simp [Node.allFunctions])
  | cons node rest =>
    have hrest := elements_fills (i + 1) rest x ref fun n hn => hq n (List.mem_cons_of_mem _ hn)
    have hnode := expression_evaluates node ref (hq node List.mem_cons_self)
    by_cases hm : node = .missing
    · subst hm
      simpa [elements, Node.allFunctions, Node.functions] using hrest
    · exact elements_cons i hm hnode hrest

theorem statement_executes (node : Node) (hq : Quiet loose node) :
    Executes loose node.work (statement node) := by
  cases node with
  | variableDeclaration loc kind declarations =>
    exact variableDeclaration_executes fun x =>
      declarators_declares declarations x (hq.item "declarations" (by simp [Node.children]))
  | functionDeclaration loc id params body =>
    have hid : Quiet loose id := hq.child "id" (by simp [Node.children])
    have hparams : ∀ node ∈ params, Quiet loose node := hq.item "params" (by simp [Node.children])
    have hbody : Quiet loose body := hq.child "body" (by simp [Node.children])
    cases body with
    | blockStatement loc' nodes =>
      have hnodes := statements_executes nodes (hbody.item "body" (by simp [Node.children]))
      cases id with
      | identifier loc'' name =>
        exact functionDeclaration_executes (fun hn => hid (hn ▸ .here _)) hparams hnodes
      | _ => exact badDeclaration_executes (by simp)
    | _ => exact badDeclaration_executes (by simp)
  | returnStatement loc argument =>
    have ha : Quiet loose argument := hq.child "argument" (by simp [Node.children])
    exact returnStatement_executes fun x => expression_evaluates argument (.ofScope x) ha
  | expressionStatement loc e =>
    have he : Quiet loose e := hq.child "expression" (by simp [Node.children])
    exact expressionStatement_executes fun x => expression_evaluates e (.ofScope x) he
  | blockStatement loc body =>
    exact blockStatement_executes
      (statements_executes body (hq.item "body" (by simp [Node.children])))
  | emptyStatement loc =>
    simp only [statement, Node.work, Node.ofStatement, Node.returns]
    exact Executes.entered (fun s s' u _ h => by
      simp only [pure_eq_ok, true_and] at h
      exact h ▸ .refl _) _
  | missing =>
    simp only [statement]
    exact Executes.entered (fail_executes _ _) _
  | _ =>
    simp only [statement, Node.work, Node.ofStatement, Node.returns]
    exact Executes.entered (fun s s' u _ h => by
      simp only [passOver_eq_ok] at h
      exact h ▸ .report s [] _) _

theorem statements_executes (nodes : List Node) (hq : ∀ node ∈ nodes, Quiet loose node) :
    Executes loose (Node.allWork nodes) (statements nodes) := by
  cases nodes with
  | nil =>
    intro s s' u _ h
    simp only [statements, pure_eq_ok, true_and] at h
    subst h
    exact .refl _
  | cons node rest =>
    intro s s' u hb h
    simp only [statements, bind_eq_ok] at h
    obtain ⟨_, s₁, hnode, hrest⟩ := h
    have hrun := statement_executes node (hq node List.mem_cons_self) hb hnode
    exact hrun.trans (statements_executes rest (fun n hn => hq n (List.mem_cons_of_mem _ hn))
      (hrun.inBody hb) hrest)

theorem declarators_declares (nodes : List Node) (x : Id) (hq : ∀ node ∈ nodes, Quiet loose node) :
    Declares loose x (Node.declaratorFunctions nodes) (declarators nodes (.ofScope x)) := by
  cases nodes with
  | nil =>
    intro s s' code added _ _ h
    simp only [declarators, pure_eq_ok] at h
    obtain ⟨rfl, rfl⟩ := h
    simpa [Node.declaratorFunctions] using Run.refl _
  | cons node rest =>
    have hnode := hq node List.mem_cons_self
    have hrest := declarators_declares rest x fun n hn => hq n (List.mem_cons_of_mem _ hn)
    cases node with
    | variableDeclarator loc id init =>
      exact declarators_cons (hnode.child "id" (by simp [Node.children]))
        (expression_evaluates init (.ofScope x) (hnode.child "init" (by simp [Node.children])))
        hrest
    | _ =>
      intro s s' code added _ _ h
      simp [declarators] at h

end

end Lower

end ScopeIR
