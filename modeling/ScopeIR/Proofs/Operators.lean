import ScopeIR.Proofs.Sources
import ScopeIR.Proofs.Steps

namespace ScopeIR

variable {loose : Prop} {s s' : Compilation} {code : List Instruction} {ref : Value}

namespace Work

@[simp] theorem append_empty (w : Work) : w ++ {} = w := by
  ext1 <;> simp

end Work

theorem Run.andThen {d d₁ d₂ : Draft} {w : Work} (h : Run loose d w d₁)
    (h₁ : Run loose d₁ {} d₂) : Run loose d w d₂ :=
  Work.append_empty w ▸ h.trans h₁

theorem Run.append {s₁ : Compilation} {a b : List Instruction} {w w₁ : Work}
    (h : Run loose ⟨s, code⟩ w ⟨s₁, code ++ a⟩)
    (h₁ : Run loose ⟨s₁, code ++ a⟩ w₁ ⟨s', code ++ a ++ b⟩) :
    Run loose ⟨s, code⟩ (w ++ w₁) ⟨s', code ++ (a ++ b)⟩ := by
  rw [← List.append_assoc]
  exact h.trans h₁

def Evaluates (loose : Prop) (ref : Value) (w : Work) (step : Lower Lowered) : Prop :=
  ∀ ⦃s s' : Compilation⦄ ⦃code : List Instruction⦄ ⦃e : Lowered⦄, Sited ref ⟨s, code⟩ →
    step s = .ok e s' → Run loose ⟨s, code⟩ w ⟨s', code ++ e.code⟩ ∧
      Draft.Yields ⟨s', code ++ e.code⟩ e.value

theorem Lower.enter_run {task : Task} {u : Unit} (code : List Instruction)
    (h : Lower.enter task s = .ok u s') : Run loose ⟨s, code⟩ {} ⟨s', code⟩ :=
  Lower.enter_eq_ok.mp h ▸ .report s code _

theorem Evaluates.entered {w : Work} {step : Lower Lowered} (h : Evaluates loose ref w step)
    (task : Task) : Evaluates loose ref w (do Lower.enter task; step) := by
  intro s s' code e hs he
  obtain ⟨_, s₁, henter, he⟩ := Lower.bind_eq_ok.mp he
  have hstart : Run loose ⟨s, code⟩ {} ⟨s₁, code⟩ := Lower.enter_run code henter
  obtain ⟨hrun, hy⟩ := h (hstart.sited hs) he
  exact ⟨hstart.trans hrun, hy⟩

/-- Combines a value with others that are at hand since the given draft. -/
def Combines (loose : Prop) (ref : Value) (d : Draft) (combine : Value → Lower Lowered) : Prop :=
  ∀ ⦃s s' : Compilation⦄ ⦃code : List Instruction⦄ ⦃old : Value⦄ ⦃e : Lowered⦄,
    Extends d ⟨s, code⟩ → Sited ref ⟨s, code⟩ → Draft.Yields ⟨s, code⟩ old →
    combine old s = .ok e s' → Run loose ⟨s, code⟩ {} ⟨s', code ++ e.code⟩ ∧
      Draft.Yields ⟨s', code ++ e.code⟩ e.value

namespace Lower

theorem compoundStep_combines {loc : Location} {operator : String} {right : Value} {d : Draft}
    (hr : Ready d) (h : d.Yields right) :
    Combines loose ref d (compoundStep loc operator right) := by
  intro s s' code old e hd hs hold he
  simp only [compoundStep, bind_eq_ok, fresh_eq_ok, pure_eq_ok] at he
  obtain ⟨_, _, ⟨rfl, rfl⟩, rfl, rfl⟩ := he
  have form : CallForm s (.compoundOperator operator) [old, right] := by
    unfold FunctionDefinition.compoundOperator
    split
    · exact .logical _ _ _
    · exact .binary _ _ _
  refine call_run hs.ready form hold fun v hv => ?_
  rw [List.mem_singleton.mp hv]
  exact (hd.yields hr h).usable

theorem updateStep_combines {loc : Location} {operator : String} {d : Draft} :
    Combines loose ref d (updateStep loc operator) := by
  intro s s' code old e hd hs hold he
  simp only [updateStep, bind_eq_ok, fresh_eq_ok, pure_eq_ok] at he
  obtain ⟨one, s₁, hone, _, _, ⟨rfl, rfl⟩, rfl, rfl⟩ := he
  obtain ⟨hrun, hy⟩ : Run loose ⟨s, code⟩ {} ⟨s₁, code ++ one.code⟩ ∧ _ :=
    constant_run hs.ready (.number _) hone
  have hold₁ := hrun.extends.yields hs.ready hold
  rw [← List.append_assoc]
  refine (call_run (hrun.sited hs).ready (.leading _ _ _) hold₁ fun v hv => ?_).imp_left hrun.trans
  rw [List.mem_singleton.mp hv]
  exact hy.usable

theorem modifyPlace_run {place : Place} {combine : Value → Lower Lowered} {m : Modified}
    (hs : Sited ref ⟨s, code ++ place.code⟩) (hp : Holds ⟨s, code ++ place.code⟩ place)
    (hc : Combines loose ref ⟨s, code ++ place.code⟩ combine)
    (h : modifyPlace place combine s = .ok m s') :
    Run loose ⟨s, code ++ place.code⟩ {} ⟨s', code ++ m.code⟩ ∧
      Draft.Yields ⟨s', code ++ m.code⟩ m.old ∧ Draft.Yields ⟨s', code ++ m.code⟩ m.new := by
  simp only [modifyPlace, bind_eq_ok, pure_eq_ok] at h
  obtain ⟨old, s₁, hload, new, s₂, hnew, write, s₃, hstore, rfl, rfl⟩ := h
  simp only [← List.append_assoc]
  obtain ⟨hrun, hold⟩ := load_run hs hp hload
  obtain ⟨hrun₁, hnew⟩ := hc hrun.extends (hrun.sited hs) hold hnew
  have hrun₂ := hrun.trans hrun₁
  have hready := (hrun₂.sited hs).ready
  have hrun₃ : Run loose _ _ _ :=
    store_run hready (hp.extends hrun₂.extends hs.ready) hnew hstore
  exact ⟨hrun₂.trans hrun₃,
    (hrun₁.trans hrun₃).extends.yields (hrun.sited hs).ready hold,
    hrun₃.extends.yields hready hnew⟩

@[simp] theorem passOver_eq_ok {position : Unsupported} {type : String} {loc : Location}
    {u : Unit} :
    passOver position type loc s = .ok u s' ↔
      s.logged (.event (.unsupported position type loc s.frame.definition.name)) = s' := by
  simp [passOver, and_assoc]

theorem assignTarget_run {target : Node} {value : Value} {added : List Instruction}
    (hs : Sited ref ⟨s, code⟩) (mention : target.Mentions parentName → loose)
    (hv : Draft.Yields ⟨s, code⟩ value) (h : assignTarget target value ref s = .ok added s') :
    Run loose ⟨s, code⟩ {} ⟨s', code ++ added⟩ := by
  unfold assignTarget at h
  split at h
  · exact assignIdentifier_run hs (fun hn => mention (hn ▸ .here _)) hv h
  · simp at h
  · simp only [bind_eq_ok, passOver_eq_ok, pure_eq_ok] at h
    obtain ⟨_, _, rfl, rfl, rfl⟩ := h
    rw [List.append_nil]
    exact .report s code _

theorem modifyTarget_run {target : Node} {read : Lower Lowered} {w : Work}
    {combine : Value → Lower Lowered} {m : Modified} (hs : Sited ref ⟨s, code⟩)
    (mention : target.Mentions parentName → loose) (hread : Evaluates loose ref w read)
    (hc : Combines loose ref ⟨s, code⟩ combine)
    (h : modifyTarget target read ref combine s = .ok m s') :
    Run loose ⟨s, code⟩ w ⟨s', code ++ m.code⟩ ∧
      Draft.Yields ⟨s', code ++ m.code⟩ m.old ∧ Draft.Yields ⟨s', code ++ m.code⟩ m.new := by
  simp only [modifyTarget, bind_eq_ok, pure_eq_ok] at h
  obtain ⟨old, s₁, hold, new, s₂, hnew, _, s₃, henter, write, s₄, hwrite, rfl, rfl⟩ := h
  simp only [← List.append_assoc]
  obtain ⟨hrun, hold⟩ := hread hs hold
  obtain ⟨hcombine, hnew⟩ := hc hrun.extends (hrun.sited hs) hold hnew
  have hstart : Run loose _ _ _ := enter_run (code ++ old.code ++ new.code) henter
  have hnew := hstart.extends.yields (hcombine.sited (hrun.sited hs)).ready hnew
  have hrun₁ := hcombine.trans hstart
  have hsited := hrun₁.sited (hrun.sited hs)
  have hrun₂ : Run loose _ _ _ := assignTarget_run hsited mention hnew hwrite
  refine ⟨?_, (hrun₁.trans hrun₂).extends.yields (hrun.sited hs).ready hold,
    hrun₂.extends.yields hsited.ready hnew⟩
  exact hrun.andThen (hrun₁.trans hrun₂)

theorem placeOf_run {loc : Location} {object property : Node} {computed : Bool}
    {lowerObject lowerProperty : Lower Lowered} {fs gs : List FunctionSource} {place : Place}
    (hs : Sited ref ⟨s, code⟩) (ho : Evaluates loose ref { functions := fs } lowerObject)
    (hp : Evaluates loose ref { functions := gs } lowerProperty)
    (h : placeOf loc object property computed lowerObject lowerProperty s = .ok place s') :
    Run loose ⟨s, code⟩
      { functions := fs ++ if (property.staticName? computed).isSome then [] else gs }
      ⟨s', code ++ place.code⟩ ∧ Holds ⟨s', code ++ place.code⟩ place := by
  unfold placeOf at h
  split at h
  · simp at h
  · cases hn : property.staticName? computed with
    | some name =>
      simp only [hn, bind_eq_ok, within_eq_ok, pure_eq_ok] at h
      obtain ⟨base, _, hbase, rfl, rfl⟩ := h
      obtain ⟨hrun, hy⟩ := ho hs hbase
      simpa using ⟨hrun, hy, by simp⟩
    | none =>
      simp only [hn, bind_eq_ok, within_eq_ok, pure_eq_ok] at h
      obtain ⟨base, s₁, hbase, key, _, hkey, rfl, rfl⟩ := h
      obtain ⟨hrun, hy⟩ := ho hs hbase
      obtain ⟨hrun₁, hy₁⟩ := hp (hrun.sited hs) hkey
      rw [List.append_assoc] at hrun₁ hy₁
      refine ⟨hrun.trans hrun₁, hrun₁.extends.yields (hrun.sited hs).ready hy, ?_⟩
      rintro v ⟨⟩
      exact hy₁.usable

theorem environment_run {id : Id} (hs : Sited ref ⟨s, code⟩) (h : environment s = .ok id s') :
    s = s' ∧ Draft.Usable ⟨s, code⟩ (.ofScope id) ∧ s.scopes.Innermost id := by
  obtain ⟨rfl, scope, hscope, rfl⟩ := environment_eq_ok h
  obtain ⟨env, henv, huse, -, hin⟩ := hs.environment
  cases hscope.symm.trans henv
  exact ⟨rfl, huse, hin⟩

/-- A known function gets the environment and its declared parameters, any other value is
called by a primitive. -/
theorem callOf_run {loc : Location} {callee : Value} {arguments : List Value} {e : Lowered}
    (hs : Sited ref ⟨s, code⟩) (hc : Draft.Yields ⟨s, code⟩ callee)
    (ha : ∀ v ∈ arguments, Draft.Usable ⟨s, code⟩ v)
    (h : callOf loc callee arguments s = .ok e s') :
    Run loose ⟨s, code⟩ {} ⟨s', code ++ e.code⟩ ∧ Draft.Yields ⟨s', code ++ e.code⟩ e.value := by
  simp only [callOf, bind_eq_ok, fresh_eq_ok] at h
  obtain ⟨id, _, hid, _, _, ⟨rfl, rfl⟩, h⟩ := h
  obtain ⟨rfl, henv, hin⟩ := environment_run hs hid
  have hdynamic : ∀ {e : Lowered} {s' : Compilation},
      (pure { code := [.apply loc s.scopes.next .callDynamic (callee :: .ofScope id :: arguments)]
              value := .ref s.scopes.next } : Lower Lowered) s.spend = .ok e s' →
        Run loose ⟨s, code⟩ {} ⟨s', code ++ e.code⟩ ∧
          Draft.Yields ⟨s', code ++ e.code⟩ e.value := by
    intro e s' h
    simp only [pure_eq_ok] at h
    obtain ⟨rfl, rfl⟩ := h
    exact call_run hs.ready (.dynamic _ _ _ hin) hc (List.forall_mem_cons.mpr ⟨henv, ha⟩)
  cases callee with
  | func fid link =>
    simp only [bind_eq_ok, require_eq_ok, get_eq_ok, pure_eq_ok] at h
    obtain ⟨link, _, ⟨rfl, rfl⟩, position, _, ⟨hp, rfl⟩, _, _, ⟨rfl, rfl⟩, target, _, ⟨ht, rfl⟩,
      rfl, rfl⟩ := h
    have hdef := hc.tame.scope.2 link rfl
    obtain ⟨name, _, _, hl, hf, hd⟩ := hc.tame.proper
    cases hl
    cases hp
    cases hf.symm.trans ht
    refine ⟨.call s code loc _ _ (.direct name position target id _ hf hd hin (by simp))
      (List.forall_mem_cons.mpr ⟨henv, fun v hv => ?_⟩) ?_, Draft.has_apply _ _ _ _ _ _ rfl,
      hs.ready.tame_next⟩
    · obtain ⟨i, -, rfl⟩ := List.mem_map.mp hv
      cases hi : arguments[i]? with
      | none =>
        have hnull : Draft.Usable ⟨s, code⟩ .null := (Draft.yields_null _).usable
        simpa [List.getD, hi] using hnull
      | some v =>
        have hm := List.mem_of_getElem? hi
        simpa [List.getD, hi] using ha v hm
    · rintro ⟨_, _, h, _⟩
      exact absurd h hdef
  | ref id => exact hdynamic h
  | const c => exact hdynamic h
  | scope id x => exact hdynamic h

theorem operation_operands {definition : FunctionDefinition} {i : Nat}
    {operands : List (List FunctionSource × Lower Lowered)} {added : List Instruction}
    {values : List Value} (hs : Sited ref ⟨s, code⟩)
    (ho : ∀ o ∈ operands, Evaluates loose ref { functions := o.1 } o.2)
    (h : operation.run definition i (operands.map (·.2)) s = .ok (added, values) s') :
    Run loose ⟨s, code⟩ { functions := operands.flatMap (·.1) } ⟨s', code ++ added⟩ ∧
      (∀ v ∈ values, Draft.Yields ⟨s', code ++ added⟩ v) ∧ values.length = operands.length := by
  induction operands generalizing s code i added values with
  | nil =>
    simp only [List.map_nil, operation.run, pure_eq_ok, Prod.mk.injEq] at h
    obtain ⟨⟨rfl, rfl⟩, rfl⟩ := h
    simpa using Run.refl _
  | cons o rest ih =>
    simp only [List.map_cons, operation.run, bind_eq_ok, within_eq_ok, pure_eq_ok, Prod.exists,
      Prod.mk.injEq] at h
    obtain ⟨e, s₁, he, added, values, _, hrest, ⟨rfl, rfl⟩, rfl⟩ := h
    obtain ⟨hrun, hy⟩ := ho o List.mem_cons_self hs he
    obtain ⟨hrun₁, hys, hlen⟩ :=
      ih (hrun.sited hs) (fun o hm => ho o (List.mem_cons_of_mem _ hm)) hrest
    refine ⟨hrun.append hrun₁, fun v hv => ?_, congrArg (· + 1) hlen⟩
    rw [← List.append_assoc]
    rcases List.mem_cons.mp hv with rfl | hv
    · exact hrun₁.extends.yields (hrun.sited hs).ready hy
    · exact hys v hv

theorem operation_evaluates (loc : Location) (definition : FunctionDefinition)
    (operands : List (List FunctionSource × Lower Lowered))
    (ho : ∀ o ∈ operands, Evaluates loose ref { functions := o.1 } o.2)
    (form : ∀ s values, values.length = operands.length → CallForm s definition values) :
    Evaluates loose ref { functions := operands.flatMap (·.1) }
      (operation loc definition (operands.map (·.2))) := by
  intro s s' code e hs h
  simp only [operation, bind_eq_ok, fresh_eq_ok, pure_eq_ok, Prod.exists] at h
  obtain ⟨added, values, s₁, hrun, _, _, ⟨rfl, rfl⟩, rfl, rfl⟩ := h
  obtain ⟨hrun, hys, hlen⟩ := operation_operands hs ho hrun
  refine ⟨?_, ?_⟩
  · have hcall : Run loose ⟨s₁, code ++ added⟩ {}
        ⟨s₁.spend, code ++ added ++ [.apply loc s₁.scopes.next definition values]⟩ := by
      refine .call s₁ _ loc definition values (form _ _ hlen) (fun v hv => (hys v hv).usable) ?_
      cases values with
      | nil =>
        rintro ⟨_, _, _, hnil, _⟩
        cases hnil
      | cons v rest => exact fun hl => absurd hl (not_linksScope (hys v List.mem_cons_self).tame.scope)
    rw [List.append_assoc] at hcall
    exact hrun.andThen hcall
  · rw [← List.append_assoc]
    exact ⟨Draft.has_apply _ _ _ _ _ _ rfl, (hrun.sited hs).ready.tame_next⟩

def Passes (loose : Prop) (ref : Value) (fs : List FunctionSource)
    (step : Lower (List Instruction × List Value)) : Prop :=
  ∀ ⦃s s' : Compilation⦄ ⦃code added : List Instruction⦄ ⦃values : List Value⦄,
    Sited ref ⟨s, code⟩ → step s = .ok (added, values) s' →
      Run loose ⟨s, code⟩ { functions := fs } ⟨s', code ++ added⟩ ∧
      ∀ v ∈ values, Draft.Usable ⟨s', code ++ added⟩ v

theorem call_evaluates {loc : Location} {callee : Node} {args : List Node} {optional : Bool}
    (hargs : Passes loose ref (Node.allFunctions args) (arguments 0 args ref))
    (hcallee : Evaluates loose ref { functions := callee.functions } (expression callee ref)) :
    Evaluates loose ref { functions := (Node.call loc callee args optional).functions }
      (expression (.call loc callee args optional) ref) := by
  rw [expression, Node.functions]
  refine .entered ?_ _
  intro s s' code e hs h
  split at h
  · simp at h
  simp only [bind_eq_ok, within_eq_ok, pure_eq_ok, Prod.exists] at h
  obtain ⟨added, values, s₁, ha, target, _, ht, _, s₂, henter, result, s₃, hresult, rfl, rfl⟩ := h
  obtain ⟨hrun, husable⟩ := hargs hs ha
  obtain ⟨hcall, hy⟩ := hcallee (hrun.sited hs) ht
  have hstart : Run loose _ _ _ := enter_run (code ++ added ++ target.code) henter
  have hy := hstart.extends.yields (hcall.sited (hrun.sited hs)).ready hy
  have hrun₁ := hcall.andThen hstart
  have hs₂ := hrun₁.sited (hrun.sited hs)
  obtain ⟨hrun₂, hy₂⟩ : Run loose ⟨s₂, code ++ added ++ target.code⟩ {} _ ∧ _ := callOf_run hs₂ hy
    (fun v hv => hrun₁.extends.usable (hrun.sited hs).ready (husable v hv)) hresult
  simp only [← List.append_assoc]
  exact ⟨hrun.trans (hrun₁.andThen hrun₂), hy₂⟩

end Lower

end ScopeIR
