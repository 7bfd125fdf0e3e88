import ScopeIR.Proofs.Verification

/-! Nothing is missing from the output. Calls have all their operands, returns have a value,
constants are typed, function objects refer to functions of the output, and branches lead to
blocks of their own function. -/
namespace ScopeIR

variable {loose : Prop} {d d' : Draft} {w : Work} {file : String} {functions others : List Function}

/-- The operands are all there and proper; what branches lead to is left open. -/
def Instruction.Complete (file : String) (functions : List Function) : Instruction → Prop
  | .call _ _ receiver _ operands => receiver = none ∧ ∃ values : List Value,
      operands = values.map some ∧ ∀ v ∈ values, v.Proper file functions
  | .ret _ value => ∃ v : Value, value = some v ∧ v.Proper file functions
  | .branch .. | .scope .. => True

theorem Instruction.Complete.mono {x : Instruction} (h : x.Complete file functions)
    (hp : functions <+: others) : x.Complete file others := by
  cases x with
  | call loc dest receiver callee operands =>
    obtain ⟨hreceiver, values, hoperands, hvalues⟩ := h
    exact ⟨hreceiver, values, hoperands, fun v hv => (hvalues v hv).mono hp⟩
  | ret loc value =>
    obtain ⟨v, hv, hproper⟩ := h
    exact ⟨v, hv, hproper.mono hp⟩
  | branch => trivial
  | scope => trivial

theorem complete_apply (loc : Location) (dest : Id) (callee : FunctionDefinition)
    {operands : List Value} (h : ∀ v ∈ operands, v.Proper file functions) :
    (Instruction.apply loc dest callee operands).Complete file functions :=
  ⟨rfl, operands, rfl, h⟩

theorem complete_parentLink (loc : Location) (dest scope : Id) {parent : Value}
    (h : parent.Proper file functions) :
    (parentLink loc dest scope parent).Complete file functions := by
  refine complete_apply loc dest _ (List.forall_mem_cons.mpr ⟨?_, List.forall_mem_singleton.mpr h⟩)
  trivial

def ClosuresProper (file : String) (functions : List Function)
    (closures : List (Id × Option FunctionLink)) : Prop :=
  ∀ closure ∈ closures, (Value.func closure.1 closure.2).Proper file functions

structure Function.Complete (file : String) (functions : List Function) (f : Function) : Prop where
  definition : f.definition = .user f.definition.name file
  code : ∀ x ∈ f.code, x.Complete file functions
  closures : ClosuresProper file functions f.closures
  file : f.file = file

structure Draft.Complete (d : Draft) : Prop where
  code : ∀ x ∈ d.body, x.Complete d.state.file d.state.functions
  closures : ClosuresProper d.state.file d.state.functions d.state.frame.closures
  functions : ∀ f ∈ d.state.functions, f.Complete d.state.file d.state.functions

theorem ClosuresProper.mono {closures : List (Id × Option FunctionLink)}
    (h : ClosuresProper file functions closures) (hp : functions <+: others) :
    ClosuresProper file others closures :=
  fun closure hc => (h closure hc).mono hp

theorem Function.Complete.mono {f : Function} (h : f.Complete file functions)
    (hp : functions <+: others) : f.Complete file others :=
  ⟨h.definition, fun x hx => (h.code x hx).mono hp, h.closures.mono hp, h.file⟩

theorem Draft.Complete.add (hd : d.Complete) {new : List Instruction}
    (body : d'.body = d.body ++ new)
    (hn : ∀ x ∈ new, x.Complete d.state.file d.state.functions)
    (file : d'.state.file = d.state.file) (functions : d'.state.functions = d.state.functions)
    (closures : d'.state.frame.closures = d.state.frame.closures) : d'.Complete where
  code x hx := by
    rw [file, functions]
    rw [body] at hx
    exact (List.mem_append.mp hx).elim (hd.code x) (hn x)
  closures := by
    rw [file, functions, closures]
    exact hd.closures
  functions := by
    rw [file, functions]
    exact hd.functions

theorem complete_enter {s : Compilation} (definition : FunctionDefinition) (params : List Node)
    (loc : Location) {before : List Block}
    (hb : ∀ x ∈ before.reverse.flatMap (·.instructions), x.Complete s.file s.functions)
    (hf : ∀ f ∈ s.functions, f.Complete s.file s.functions) :
    Draft.Complete ⟨s.enter definition params loc before, []⟩ where
  code x hx := by
    rw [Compilation.body_enter] at hx
    rcases List.mem_append.mp hx with hx | hx
    · exact hb x hx
    · rcases List.mem_pair.mp hx with rfl | rfl
      · trivial
      · exact complete_parentLink loc _ _ trivial
  closures := List.forall_mem_nil _
  functions := hf

theorem Draft.Complete.finish {s : Compilation} (h : Draft.Complete ⟨s, []⟩)
    (hd : s.frame.definition = .user s.frame.definition.name file) (hfile : s.file = file)
    (loc : Location) : (s.frame.finish file loc).Complete file s.functions where
  file := rfl
  definition := hd
  code x hx := by
    rw [Frame.code_finish] at hx
    rw [← hfile]
    rcases List.mem_append.mp hx with hx | hx
    · exact h.code x (List.mem_append_left _ hx)
    · split at hx
      · cases List.mem_singleton.mp hx
        exact ⟨.null, rfl, .inl rfl⟩
      · cases hx
  closures := by
    rw [← hfile]
    exact h.closures

theorem Draft.Complete.leave {s s₁ : Compilation} {code : List Instruction}
    {definition : FunctionDefinition} (hd : Draft.Complete ⟨s, code⟩)
    (hd₁ : Draft.Complete ⟨s₁, []⟩) (hfunctions : s.functions <+: s₁.functions)
    (hfile : s₁.file = s.file) (hdefinition : s₁.frame.definition = definition)
    (named : definition = .user definition.name s.file) (loc : Location) :
    Draft.Complete ⟨s₁.leave loc (s.frame.addClosure s.scopes.next
      ⟨definition, some s₁.functions.length⟩),
      code ++ [.apply loc s.scopes.next .newObject []]⟩ := by
  have hlast : s₁.functions <+: s₁.functions ++ [s₁.frame.finish s₁.file loc] :=
    List.prefix_append _ _
  have hp := hfunctions.trans hlast
  have hnamed : definition = .user definition.name s₁.file := hfile ▸ named
  refine ⟨fun x hx => ?_, fun closure hc => ?_, fun f hf => ?_⟩
  · have hbody : Draft.body ⟨s₁.leave loc (s.frame.addClosure s.scopes.next
          ⟨definition, some s₁.functions.length⟩),
        code ++ [.apply loc s.scopes.next .newObject []]⟩ =
        Draft.body ⟨s, code⟩ ++ [.apply loc s.scopes.next .newObject []] :=
      Draft.body_append rfl _
    rw [hbody] at hx
    rcases List.mem_append.mp hx with hx | hx
    · exact hfile ▸ (hd.code x hx).mono hp
    · cases List.mem_singleton.mp hx
      exact complete_apply loc _ _ (List.forall_mem_nil _)
  · rcases List.mem_append.mp hc with hc | hc
    · exact hfile ▸ (hd.closures closure hc).mono hp
    · cases List.mem_singleton.mp hc
      exact ⟨definition.name, s₁.functions.length, _,
        congrArg (fun d => some (FunctionLink.mk d _)) hnamed, List.getElem?_concat_length,
        hdefinition.trans hnamed⟩
  · rcases List.mem_append.mp hf with hf | hf
    · exact (hd₁.functions f hf).mono hlast
    · cases List.mem_singleton.mp hf
      exact (hd₁.finish (hdefinition.symm ▸ hnamed) rfl loc).mono hlast

theorem Run.complete (h : Run loose d w d') (hd : d.Complete) : d'.Complete := by
  induction h with
  | trans _ _ ih ih₁ => exact ih₁ (ih hd)
  | call s code loc callee operands form usable =>
    refine hd.add (Draft.body_append rfl _) (List.forall_mem_singleton.mpr ?_) rfl rfl rfl
    exact complete_apply loc _ callee fun v hv => (usable v hv).proper
  | create s code loc kind literals =>
    refine hd.add (Draft.body_append rfl _) (List.forall_mem_singleton.mpr ?_) rfl rfl rfl
    exact complete_apply loc _ _ (List.forall_mem_nil _)
  | @object s s₁ code code₁ w y kind inner ih =>
    have hd₁ := ih ⟨hd.code, hd.closures, hd.functions⟩
    exact ⟨hd₁.code, hd₁.closures, hd₁.functions⟩
  | @block s s₁ w parent kind rest loc opened chain own inner ih =>
    have henter : Draft.Complete ⟨s.enterBlock loc parent, []⟩ := by
      refine hd.add (s.body_enterBlock loc parent (Frame.blocks_ne_nil_of_isOpen opened)) ?_ rfl rfl
        (s.closures_enterBlock loc parent)
      simp only [List.forall_mem_cons]
      exact ⟨trivial, complete_apply loc _ _ (List.forall_mem_nil _),
        complete_parentLink loc _ _ trivial, List.forall_mem_nil _⟩
    obtain ⟨branches, hbody, hbranches⟩ := s₁.body_leaveBlock loc parent
    refine (ih henter).add hbody (fun x hx => ?_) rfl rfl (s₁.closures_leaveBlock loc parent)
    obtain ⟨target, rfl⟩ := hbranches x hx
    trivial
  | @function s s₁ w _ code definition params body loc named settled inner ih =>
    subst named
    have he := inner.extends
    have hd₁ := ih (complete_enter (s := s.spend) _ params loc (List.forall_mem_nil _)
      hd.functions)
    exact hd.leave hd₁ he.functions he.file he.definition rfl loc
  | start s code scope loc =>
    exact hd.add ((Draft.body_start scope loc).trans (List.append_nil _).symm)
      (List.forall_mem_nil _) rfl rfl rfl
  | place s code opened =>
    exact hd.add ((Draft.body_place (Frame.blocks_ne_nil_of_isOpen opened)).trans
      (List.append_nil _).symm) (List.forall_mem_nil _) rfl rfl (Frame.closures_extend _ _)
  | ret s code loc value opened has tame =>
    refine hd.add (Draft.body_ret (Frame.blocks_ne_nil_of_isOpen opened) loc (some value))
      (List.forall_mem_singleton.mpr ?_) rfl rfl (Frame.closures_extend _ _)
    exact ⟨value, rfl, tame.proper⟩
  | _ => exact ⟨hd.code, hd.closures, hd.functions⟩

theorem Prologue.complete {loc : Location} {n : Nat} {hosted : List Constant}
    {code : List Instruction} (h : Prologue loc n hosted code) :
    (∀ c ∈ hosted, c.IsTyped) ∧ ∀ x ∈ code, x.Complete file functions := by
  induction h with
  | scope => exact ⟨List.forall_mem_nil _, List.forall_mem_singleton.mpr trivial⟩
  | host name _ ih =>
    refine ⟨fun c hc => ?_, ih.2⟩
    rcases List.mem_append.mp hc with hc | hc
    · exact ih.1 c hc
    · cases List.mem_singleton.mp hc
      exact ⟨rfl, .string name⟩
  | seed name value global _ ih =>
    refine ⟨ih.1, fun x hx => ?_⟩
    rcases List.mem_append.mp hx with hx | hx
    · exact ih.2 x hx
    · cases List.mem_singleton.mp hx
      refine complete_apply loc _ _ (List.forall_mem_cons.mpr
        ⟨trivial, List.forall_mem_singleton.mpr ?_⟩)
      rcases global with rfl | rfl | ⟨c, hc, rfl⟩
      · exact .inl rfl
      · trivial
      · exact .inr (ih.1 c hc)

theorem ProgramRun.complete {hosts : List String} {node : Node} {result : Compilation}
    (p : ProgramRun loose file hosts node functions result) :
    ∀ f ∈ functions, f.Complete file functions := by
  have hempty : ∀ f ∈ p.seeded.functions, f.Complete p.seeded.file p.seeded.functions := by
    rw [p.seeds.functions]
    exact List.forall_mem_nil _
  have hstart : Draft.Complete ⟨p.seeded.enterMain file p.loc p.prologue, []⟩ := by
    refine complete_enter _ _ _ (fun x hx => ?_) hempty
    rw [List.reverse_singleton, List.flatMap_singleton] at hx
    rcases List.mem_append.mp hx with hx | hx
    · exact p.seeds.prologue.complete.2 x hx
    · cases List.mem_singleton.mp hx
      trivial
  have hfinal := p.run.complete hstart
  have he := p.run.extends
  have hfile : p.final.file = file := he.file.trans p.seeds.file
  have hdefinition : p.final.frame.definition = .user mainName file := he.definition
  have hlast : p.final.functions <+: functions := ⟨_, p.output.symm⟩
  intro f hf
  rcases p.mem_functions.mp hf with hf | rfl
  · exact (hfile ▸ hfinal.functions f hf).mono hlast
  · exact (hfinal.finish (hdefinition.symm ▸ rfl) hfile p.loc).mono hlast

end ScopeIR
