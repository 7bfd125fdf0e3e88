import ScopeIR.Proofs.Flow
import ScopeIR.Proofs.Operators

/-! Blocks and functions as runs: where code goes, how a function is entered and left. -/
namespace ScopeIR

variable {loose : Prop} {s s' : Compilation} {code : List Instruction} {ref : Value}

structure InBody (d : Draft) : Prop where
  ready : Ready d
  top : ∃ x kind rest stack, d.state.scopes.stack = x :: stack ∧
    d.state.scopes.chain = (x, kind) :: rest

theorem Run.inBody {d d' : Draft} {w : Work} (h : Run loose d w d') (hb : InBody d) :
    InBody d' where
  ready := h.ready hb.ready
  top := by
    rw [h.extends.stack, h.extends.chain hb.ready]
    exact hb.top

theorem InBody.of_stack {d : Draft} {x : Id} {rest : List Id} {kind : ScopeKind} (hr : Ready d)
    (hs : d.state.scopes.stack = x :: rest) (hk : d.state.scopes.kind? x = some kind)
    (he : kind.isEnvironment) : InBody d := by
  obtain ⟨others, hc⟩ := ScopeTable.chain_of_stack hs hk he
  exact ⟨hr, x, kind, others, rest, hs, hc⟩

def Executes (loose : Prop) (w : Work) (step : Lower Unit) : Prop :=
  ∀ ⦃s s' : Compilation⦄ ⦃u : Unit⦄, InBody ⟨s, []⟩ → step s = .ok u s' →
    Run loose ⟨s, []⟩ w ⟨s', []⟩

/-- Where no block returned before, the step closes none by a return. -/
def Settles (step : Lower Unit) : Prop :=
  ∀ ⦃s s' : Compilation⦄ ⦃u : Unit⦄, InBody ⟨s, []⟩ → Draft.Shaped False ⟨s, []⟩ →
    step s = .ok u s' → Sealed False s'.frame.blocks.tail

theorem Executes.settles {w : Work} {step : Lower Unit} (h : Executes loose w step)
    (hw : w.returns = false) : Settles step := fun _ _ _ hb hs hstep =>
  ((h hb hstep).shaped (by simp [hw]) hs).frame.tail

namespace Lower

@[simp] theorem append_eq_ok {u : Unit} : append code s = .ok u s' ↔
    s.frame.blocks ≠ [] ∧ { s with frame := s.frame.extend code } = s' := by
  simp only [append, modifyFrame, bind_eq_ok, get_eq_ok]
  constructor
  · rintro ⟨_, _, ⟨rfl, rfl⟩, h⟩
    cases hb : s.frame.blocks with
    | nil => simp [hb] at h
    | cons block older => simpa [hb, Frame.extend] using h
  · rintro ⟨hb, h⟩
    obtain ⟨block, older, hb⟩ := List.exists_cons_of_ne_nil hb
    exact ⟨s, s, ⟨rfl, rfl⟩, by simpa [hb, Frame.extend] using h⟩

@[simp] theorem startBlock_eq_ok {scope : Id} {loc : Location} {u : Unit} :
    startBlock scope loc s = .ok u s' ↔ { s with frame := s.frame.start scope loc } = s' := by
  simp [startBlock, modifyFrame, Frame.start]

theorem currentBlock_eq_ok {block : Block} (h : currentBlock s = .ok block s') :
    s = s' ∧ s.frame.isOpen = !block.isTerminated ∧ s.frame.blocks ≠ [] := by
  simp only [currentBlock, bind_eq_ok, get_eq_ok, require_eq_ok] at h
  obtain ⟨_, _, ⟨rfl, rfl⟩, hb, rfl⟩ := h
  refine ⟨rfl, by simp [Frame.isOpen, hb], fun hnil => ?_⟩
  simp [hnil] at hb

@[simp] theorem branchToNext_eq_ok {loc : Location} {u : Unit} : branchToNext loc s = .ok u s' ↔
    s.frame.blocks ≠ [] ∧
      { s with frame := s.frame.extend [.branch loc (some (.own s.frame.blocks.length))] } = s' :=
  append_eq_ok

@[simp] theorem createScope_eq_ok {kind : ScopeKind} {id : Id} :
    createScope kind s = .ok id s' ↔ (s.scopes.next : Id) = id ∧
      { s with
        scopes := (s.scopes.create kind).2
        log := .event (.createScope s.scopes.next kind) :: s.log } =
        s' := by
  change EStateM.Result.ok _ _ = _ ↔ _
  rw [EStateM.Result.ok.injEq]
  rfl

@[simp] theorem pushScope_eq_ok {id : Id} {kind : ScopeKind} {u : Unit} :
    pushScope id kind s = .ok u s' ↔
      { s with
        scopes := s.scopes.push id
        log := .event (.pushScope id kind (s.scopes.stack.length + 1)) :: s.log } = s' := by
  change EStateM.Result.ok _ _ = _ ↔ _
  rw [EStateM.Result.ok.injEq]
  exact ⟨And.right, fun h => ⟨rfl, h⟩⟩

theorem popScope_eq_ok {u : Unit} {x : Id} {rest : List Id} {kind : ScopeKind}
    (h : popScope s = .ok u s') (hs : s.scopes.stack = x :: rest)
    (hk : s.scopes.kind? x = some kind) : s' = { s with
      scopes := s.scopes.pop, log := .event (.popScope x kind s.scopes.pop.depth) :: s.log } := by
  obtain ⟨scope, hscope, rfl⟩ := ScopeTable.scope?_of_kind? hk
  have hc := ScopeTable.current?_of_stack hs hscope
  simp only [popScope, bind_eq_ok, get_eq_ok] at h
  obtain ⟨_, _, ⟨rfl, rfl⟩, h⟩ := h
  simp only [hc, bind_eq_ok, modify_eq_ok, get_eq_ok, report_eq_ok] at h
  obtain ⟨_, _, rfl, _, _, ⟨rfl, rfl⟩, rfl⟩ := h
  rw [ScopeTable.scope?_id hscope]
  rfl

theorem currentScope_of_stack {x id : Id} {rest : List Id} {kind : ScopeKind}
    (h : currentScope s = .ok id s') (hs : s.scopes.stack = x :: rest)
    (hk : s.scopes.kind? x = some kind) : s = s' ∧ id = x := by
  obtain ⟨scope, hscope, -⟩ := ScopeTable.scope?_of_kind? hk
  simp only [currentScope, bind_eq_ok, get_eq_ok, require_eq_ok, pure_eq_ok] at h
  obtain ⟨_, _, ⟨rfl, rfl⟩, current, _, ⟨hc, rfl⟩, rfl, rfl⟩ := h
  cases hc.symm.trans (ScopeTable.current?_of_stack hs hscope)
  exact ⟨rfl, ScopeTable.scope?_id hscope⟩

theorem currentScope_eq_ok {id : Id} (hb : InBody ⟨s, code⟩) (h : currentScope s = .ok id s') :
    s = s' ∧ Sited (.ofScope id) ⟨s, code⟩ ∧ id ∈ Draft.defined ⟨s, code⟩ ∧ s.scopes.IsLocal id ∧
      s.scopes.Innermost id := by
  simp only [currentScope, bind_eq_ok, get_eq_ok, require_eq_ok, pure_eq_ok] at h
  obtain ⟨_, _, ⟨rfl, rfl⟩, scope, _, ⟨hc, rfl⟩, rfl, rfl⟩ := h
  obtain ⟨x, kind, rest, stack, hstack, hchain⟩ := hb.top
  obtain ⟨y, kind', rest', hchain', hy, hl⟩ := hb.ready.environment
  cases hchain.symm.trans hchain'
  have hsited : Sited (.ofScope x) ⟨s, code⟩ := ⟨hb.ready, x, stack, hstack, rfl⟩
  obtain ⟨current, hcur, hx⟩ := hsited.current
  cases hc.symm.trans hcur
  obtain rfl := ScopeTable.scope?_id hx
  exact ⟨rfl, hsited, hy, hl, _, _, hchain⟩

theorem ensureOpen_run {loc : Location} {u : Unit} (hb : InBody ⟨s, code⟩)
    (h : ensureOpen loc s = .ok u s') :
    Run loose ⟨s, code⟩ {} ⟨s', code⟩ ∧ s'.frame.isOpen := by
  simp only [ensureOpen, bind_eq_ok] at h
  obtain ⟨block, _, hblock, h⟩ := h
  obtain ⟨rfl, hopen, hne⟩ := currentBlock_eq_ok hblock
  split at h
  · rename_i ht
    simp only [bind_eq_ok, startBlock_eq_ok] at h
    obtain ⟨scope, _, hscope, rfl⟩ := h
    obtain ⟨rfl, -, -, -, hin⟩ := currentScope_eq_ok hb hscope
    exact ⟨.start s code scope loc (by simp [hopen, ht]) hne hin, rfl⟩
  · rename_i ht
    simp only [pure_eq_ok, true_and] at h
    subst h
    exact ⟨.refl _, by simp [hopen, ht]⟩

theorem emit_run {loc : Location} {u : Unit} (hb : InBody ⟨s, code⟩)
    (h : emit loc code s = .ok u s') : Run loose ⟨s, code⟩ {} ⟨s', []⟩ := by
  unfold emit at h
  split at h
  · rename_i hempty
    simp only [pure_eq_ok, true_and] at h
    subst h
    rw [List.isEmpty_iff.mp hempty]
    exact .refl _
  · simp only [bind_eq_ok, append_eq_ok] at h
    obtain ⟨_, s₁, hensure, _, rfl⟩ := h
    obtain ⟨hrun, hopen⟩ := ensureOpen_run hb hensure
    exact hrun.trans (.place s₁ code hopen)

theorem emit_ret_eq_ok {loc : Location} {value : Value} {u : Unit}
    (h : emit loc (code ++ [.ret loc (some value)]) s = .ok u s') :
    ∃ s₁, ensureOpen loc s = .ok () s₁ ∧
      { s₁ with frame := s₁.frame.extend (code ++ [.ret loc (some value)]) } = s' := by
  simp only [emit, List.isEmpty_iff, List.append_eq_nil_iff, List.cons_ne_nil, and_false, if_false,
    bind_eq_ok, append_eq_ok] at h
  obtain ⟨_, s₁, hensure, -, h⟩ := h
  exact ⟨s₁, hensure, h⟩

theorem emit_ret_run {loc : Location} {value : Value} {u : Unit} (hb : InBody ⟨s, code⟩)
    (hv : Draft.Yields ⟨s, code⟩ value)
    (h : emit loc (code ++ [.ret loc (some value)]) s = .ok u s') :
    Run loose ⟨s, code⟩ { returns := true } ⟨s', []⟩ := by
  obtain ⟨s₁, hensure, rfl⟩ := emit_ret_eq_ok h
  obtain ⟨hrun, hopen⟩ : Run loose ⟨s, code⟩ {} ⟨s₁, code⟩ ∧ _ := ensureOpen_run hb hensure
  have hv₁ := hrun.extends.yields hb.ready hv
  exact hrun.trans (.ret s₁ code loc value hopen hv₁.has hv₁.tame)

theorem returnValue_run {loc : Location} {argument : Lower Lowered} {fs : List FunctionSource}
    {u : Unit} (hb : InBody ⟨s, []⟩) (hs : Sited ref ⟨s, []⟩)
    (ha : Evaluates loose ref { functions := fs } argument)
    (h : returnValue loc argument s = .ok u s') :
    Run loose ⟨s, []⟩ { functions := fs, returns := true } ⟨s', []⟩ := by
  simp only [returnValue, bind_eq_ok, within_eq_ok] at h
  obtain ⟨e, s₁, he, h⟩ := h
  obtain ⟨hrun, hy⟩ := ha hs he
  have hret : Run loose ⟨s₁, e.code⟩ { returns := true } ⟨s', []⟩ :=
    emit_ret_run (hrun.inBody hb) hy h
  have hwork : ({ functions := fs } : Work) ++ { returns := true } =
      { functions := fs, returns := true } := by ext1 <;> simp
  exact hwork ▸ hrun.trans hret

theorem returnValue_settles {loc : Location} {argument : Lower Lowered} {fs : List FunctionSource}
    {u : Unit} (hb : InBody ⟨s, []⟩) (hs : Sited ref ⟨s, []⟩)
    (ha : Evaluates loose ref { functions := fs } argument) (hshape : Draft.Shaped False ⟨s, []⟩)
    (h : returnValue loc argument s = .ok u s') : Sealed False s'.frame.blocks.tail := by
  simp only [returnValue, bind_eq_ok, within_eq_ok] at h
  obtain ⟨e, s₁, he, h⟩ := h
  obtain ⟨hrun, -⟩ := ha hs he
  obtain ⟨s₂, hensure, rfl⟩ := emit_ret_eq_ok h
  obtain ⟨hopen, -⟩ : Run loose ⟨s₁, e.code⟩ {} ⟨s₂, e.code⟩ ∧ _ :=
    ensureOpen_run (hrun.inBody hb) hensure
  rw [Frame.tail_blocks_extend]
  exact (hopen.shaped (by simp) (hrun.shaped (by simp) hshape)).frame.tail

theorem declareTarget_run {target : Node} {value : Value} {x : Id} {added : List Instruction}
    (hr : Ready ⟨s, code⟩) (hx : x ∈ Draft.defined ⟨s, code⟩)
    (mention : target.Mentions parentName → loose) (hv : Draft.Yields ⟨s, code⟩ value)
    (h : declareTarget target value (.ofScope x) s = .ok added s') :
    Run loose ⟨s, code⟩ {} ⟨s', code ++ added⟩ := by
  unfold declareTarget at h
  split at h
  · have ho : Draft.Usable ⟨s, code⟩ (.ofScope x) := ⟨.inl (.inr hx), trivial, hr.defined x hx⟩
    refine declareField_run ho (fun scope hscope => .inl ?_) ?_ hv h
    · rw [ScopeTable.scope?_id hscope]
      exact hx
    · rintro ⟨_, _, hc, _⟩
      obtain rfl := FunctionDefinition.setField_inj hc
      exact mention (.here _)
  · simp only [bind_eq_ok, passOver_eq_ok, pure_eq_ok] at h
    obtain ⟨_, _, rfl, rfl, rfl⟩ := h
    rw [List.append_nil]
    exact .report s code _

theorem enterBlock_eq (loc : Location) (parent : Id) (hb : s.frame.blocks ≠ []) :
    ∃ event event', enterBlock loc parent s =
      .ok () (((s.enterBlock loc parent).logged event).logged event') := by
  obtain ⟨file, scopes, functions, ⟨definition, parameters, blocks, closures⟩, log, accesses⟩ := s
  cases blocks with
  | nil => exact absurd rfl hb
  | cons block older => exact ⟨_, _, rfl⟩

theorem leaveBlock_eq_ok {loc : Location} {x parent : Id} {rest : List Id}
    {kind around : ScopeKind} {u : Unit} (hs : s.scopes.stack = x :: parent :: rest)
    (hx : s.scopes.kind? x = some kind) (hp : s.scopes.kind? parent = some around)
    (h : leaveBlock loc s = .ok u s') :
    ∃ event, s' = (s.leaveBlock loc parent).logged event := by
  simp only [leaveBlock, bind_eq_ok] at h
  obtain ⟨_, _, hpop, last, _, hlast, h⟩ := h
  obtain rfl := popScope_eq_ok hpop hs hx
  obtain ⟨rfl, hopen, -⟩ := currentBlock_eq_ok hlast
  have hopen : s.frame.isOpen = !last.isTerminated := hopen
  refine ⟨.event (.popScope x kind s.scopes.pop.depth), ?_⟩
  split at h
  · rename_i ht
    simp only [bind_eq_ok, branchToNext_eq_ok, startBlock_eq_ok] at h
    obtain ⟨_, _, ⟨-, rfl⟩, scope, _, hscope, rfl⟩ := h
    obtain ⟨rfl, rfl⟩ := currentScope_of_stack hscope (congrArg List.tail hs) hp
    simp [Compilation.leaveBlock, Compilation.logged, hopen, ht, Frame.advance]
  · rename_i ht
    simp only [pure_eq_ok, true_and] at h
    simp [← h, Compilation.leaveBlock, Compilation.logged, hopen, ht]

/-- Whatever is lowered in a block, its scope stays on the stack, above the scope around it. -/
theorem enterBlock_stack {loc : Location} {parent : Id} {kind : ScopeKind} {w : Work}
    {rest : List (Id × ScopeKind)} (hb : InBody ⟨s, []⟩)
    (hchain : s.scopes.chain = (parent, kind) :: rest)
    (hinner : Run loose ⟨s.enterBlock loc parent, []⟩ w ⟨s', []⟩) :
    ∃ stack around, s'.scopes.stack = (s.scopes.next : Id) :: parent :: stack ∧
      s'.scopes.kind? s.scopes.next = some .block ∧ s'.scopes.kind? parent = some around := by
  have henters := s.enters_enterBlock loc parent
  obtain ⟨x, _, _, stack, hstack, hchain'⟩ := hb.top
  cases hchain.symm.trans hchain'
  obtain ⟨around, hk⟩ := hb.ready.sound.stack parent (hstack ▸ List.mem_cons_self)
  have hlt : (parent : Int) < s.scopes.next := hb.ready.sound.ids parent around hk
  have hnew : (s.scopes.next : Int) < (s.scopes.next + 2 : Nat) := by omega
  refine ⟨stack, around, ?_, (hinner.extends.kinds _ hnew).trans henters.new, ?_⟩
  · rw [← show s.scopes.stack = parent :: stack from hstack]
    exact hinner.extends.stack
  · exact (hinner.extends.kinds parent (Int.lt_trans hlt hnew)).trans ((henters.old hlt).trans hk)

theorem block_run {loc : Location} {parent : Id} {kind : ScopeKind} {w : Work}
    {rest : List (Id × ScopeKind)} {body : Lower Unit} {s₁ s₂ : Compilation} {u u₁ u₂ : Unit}
    (hb : InBody ⟨s, []⟩) (hopen : s.frame.isOpen)
    (hchain : s.scopes.chain = (parent, kind) :: rest) (hown : parent ∈ Draft.defined ⟨s, []⟩)
    (hbody : Executes loose w body) (henter : enterBlock loc parent s = .ok u s₁)
    (h : body s₁ = .ok u₁ s₂) (hleave : leaveBlock loc s₂ = .ok u₂ s') :
    Run loose ⟨s, []⟩ w ⟨s', []⟩ := by
  obtain ⟨event, event', henter'⟩ := enterBlock_eq (s := s) loc parent hb.ready.blocks
  cases henter.symm.trans henter'
  have hlog : Run loose ⟨s.enterBlock loc parent, []⟩ {} _ :=
    (Run.report _ [] event).trans (.report _ [] event')
  have hnew := (s.enters_enterBlock loc parent).new
  have hin : InBody ⟨s.enterBlock loc parent, []⟩ :=
    .of_stack (hb.ready.enterBlock loc parent) rfl hnew rfl
  have hinner : Run loose ⟨s.enterBlock loc parent, []⟩ w ⟨s₂, []⟩ :=
    hlog.trans (hbody (hlog.inBody hin) h)
  have hblock := Run.block loc hopen hchain hown hinner
  obtain ⟨stack, around, hstack, hkind, hparent⟩ := enterBlock_stack hb hchain hinner
  obtain ⟨event, rfl⟩ := leaveBlock_eq_ok hstack hkind hparent hleave
  exact hblock.andThen (.report _ _ event)

@[simp] theorem parameters_eq_ok {params : List Node} {ps : List Parameter} :
    parameters params s = .ok ps s' ↔ parametersFrom s.scopes.next params = ps ∧
      { s with scopes := { s.scopes with next := s.scopes.next + params.length } } = s' := by
  induction params generalizing s s' ps with
  | nil => simp [parameters, parametersFrom]
  | cons node rest ih =>
    simp only [parameters, bind_eq_ok, fresh_eq_ok, ih, pure_eq_ok]
    constructor
    · rintro ⟨_, _, ⟨rfl, rfl⟩, _, _, ⟨rfl, rfl⟩, rfl, rfl⟩
      refine ⟨rfl, ?_⟩
      simp [ScopeTable.fresh, Nat.add_comm, Nat.add_left_comm]
    · rintro ⟨rfl, rfl⟩
      refine ⟨_, _, ⟨rfl, rfl⟩, _, _, ⟨rfl, rfl⟩, rfl, ?_⟩
      simp [ScopeTable.fresh, Nat.add_comm, Nat.add_left_comm]

theorem Executes.entered {w : Work} {step : Lower Unit} (h : Executes loose w step)
    (task : Task) : Executes loose w (do enter task; step) := by
  intro s s' u hb hstep
  obtain ⟨_, s₁, henter, hstep⟩ := bind_eq_ok.mp hstep
  have hstart : Run loose ⟨s, []⟩ {} ⟨s₁, []⟩ := enter_run [] henter
  exact hstart.trans (h (hstart.inBody hb) hstep)

theorem blockStatement_executes {loc : Location} {body : List Node}
    (hbody : Executes loose (Node.allWork body) (statements body)) :
    Executes loose (Node.work (.blockStatement loc body))
      (statement (.blockStatement loc body)) := by
  rw [statement, Node.work, Node.ofStatement, Node.returns]
  refine Executes.entered ?_ _
  intro s s' u hb h
  simp only [bind_eq_ok] at h
  obtain ⟨parent, _, hparent, _, s₁, hensure, _, s₂, henter, _, s₃, hstatements, hleave⟩ := h
  obtain ⟨rfl, -, hown, -, kind, rest, hchain⟩ := currentScope_eq_ok hb hparent
  obtain ⟨hrun, hopen⟩ : Run loose ⟨s, []⟩ {} ⟨s₁, []⟩ ∧ _ := ensureOpen_run hb hensure
  exact hrun.trans (block_run (hrun.inBody hb) hopen ((hrun.extends.chain hb.ready).trans hchain)
    (hrun.extends.defined hb.ready.blocks hown) hbody henter hstatements hleave)

theorem isOpen_extend_apply {f : Frame} (h : f.blocks ≠ []) (loc : Location) (id : Id)
    (callee : FunctionDefinition) (operands : List Value) :
    (f.extend [.apply loc id callee operands]).isOpen := by
  obtain ⟨block, older, hb⟩ := List.exists_cons_of_ne_nil h
  simp [Frame.extend, hb, Frame.isOpen, Block.add, Block.isTerminated, Block.terminator?,
    Instruction.apply, Instruction.isTerminator]

theorem bindParameters_run {scope : Id} {ps : List Parameter} {u : Unit}
    (hr : Ready ⟨s, []⟩) (hopen : s.frame.isOpen) (hscope : scope ∈ Draft.defined ⟨s, []⟩)
    (hps : ∀ p ∈ ps, p ∈ s.frame.parameters) (mention : ∀ p ∈ ps, p.name = parentName → loose)
    (h : bindParameters scope ps s = .ok u s') : Run loose ⟨s, []⟩ {} ⟨s', []⟩ := by
  induction ps generalizing s with
  | nil =>
    simp only [bindParameters, pure_eq_ok, true_and] at h
    subst h
    exact .refl _
  | cons p rest ih =>
    have ih' : ∀ {s₁ : Compilation}, Run loose ⟨s, []⟩ {} ⟨s₁, []⟩ → s₁.frame.isOpen →
        bindParameters scope rest s₁ = .ok u s' → Run loose ⟨s, []⟩ {} ⟨s', []⟩ := by
      intro s₁ hrun hopen h
      refine hrun.trans (ih (hrun.ready hr) hopen (hrun.extends.defined hr.blocks hscope) ?_
        (fun q hq => mention q (List.mem_cons_of_mem p hq)) h)
      rw [hrun.extends.parameters]
      exact fun q hq => hps q (List.mem_cons_of_mem p hq)
    unfold bindParameters at h
    split at h
    · simp only [assign, modifyScope, bind_eq_ok, modify_eq_ok, fresh_eq_ok, append_eq_ok] at h
      obtain ⟨_, s₁, hassign, _, _, ⟨rfl, rfl⟩, _, _, ⟨-, rfl⟩, h⟩ := h
      have hp := hps p List.mem_cons_self
      have hy : Draft.Yields ⟨s, []⟩ p.value :=
        ⟨.inr (Draft.mem_defined.mpr (.inl ⟨p, hp, rfl⟩)), trivial,
          ⟨hr.parameter_lt hp, hr.plain p hp⟩, hr.parameter_lt hp⟩
      have hrun : Run loose ⟨s, []⟩ {} ⟨s₁, []⟩ :=
        hassign ▸ .assign s [] scope p.name p.value hy.has hy.tame (.inl hscope)
      have hcall : Run loose ⟨s₁, []⟩ {} ⟨s₁.spend,
          [.apply p.location s₁.scopes.next (.setField p.name) [.ofScope scope, p.value]]⟩ := by
        refine .call s₁ [] _ _ _ (.setField _ _ _) (fun v hv => ?_) ?_
        · simp only [List.mem_cons, List.not_mem_nil, or_false] at hv
          rcases hv with rfl | rfl
          · have hx := hrun.extends.defined hr.blocks hscope
            exact ⟨.inl (.inr hx), trivial, (hrun.ready hr).defined _ hx⟩
          · exact hrun.extends.usable hr hy.usable
        · rintro ⟨_, _, hc, _⟩
          exact mention p List.mem_cons_self (FunctionDefinition.setField_inj hc)
      have hframe : s₁.frame = s.frame := by rw [← hassign]
      have hopen₁ : s₁.spend.frame.isOpen := hframe ▸ hopen
      exact ih' ((hrun.trans hcall).trans (.place _ _ hopen₁))
        (isOpen_extend_apply (Frame.blocks_ne_nil_of_isOpen hopen₁) _ _ _ _) h
    · exact ih' (.refl _) hopen h

/-- The blocks before a function lead to its entry. -/
def leadingIn (loc : Location) : List Block → List Block
  | [] => []
  | block :: older => block.add [.branch loc (some (.own (older.length + 1)))] :: older

theorem enterFunction_eq (definition : FunctionDefinition) (params : List Node) (loc : Location)
    (before : List Block) : enterFunction definition params loc before s =
      .ok (s.enteredScope params, parametersFrom (s.scopes.next + 1) params)
        (s.enter definition params loc (leadingIn loc before)) := by
  have hfresh : fresh s = .ok (s.scopes.next : Id) s.spend := rfl
  have hparams : parameters params s.spend = .ok _ _ := parameters_eq_ok.mpr ⟨rfl, rfl⟩
  unfold enterFunction
  rw [bind_of_ok hfresh, bind_of_ok hparams]
  cases before with
  | nil => rfl
  | cons block older => rfl

theorem finishFunction_eq_ok {loc : Location} {outer : Frame} {position : Nat}
    (h : finishFunction loc outer s = .ok position s') : position = s.functions.length ∧
      s' = { s with functions := s.functions ++ [s.frame.finish s.file loc], frame := outer } := by
  simp only [finishFunction, bind_eq_ok] at h
  obtain ⟨last, _, hlast, h⟩ := h
  obtain ⟨rfl, hopen, -⟩ := currentBlock_eq_ok hlast
  cases ht : last.isTerminated with
  | true =>
    simp only [ht, Bool.not_true, Bool.false_eq_true, if_false, bind_eq_ok, get_eq_ok,
      modify_eq_ok, pure_eq_ok] at h
    obtain ⟨_, _, ⟨rfl, rfl⟩, _, _, rfl, rfl, rfl⟩ := h
    simp [Frame.finish, hopen, ht]
  | false =>
    simp only [ht, Bool.not_false, if_true, bind_eq_ok, append_eq_ok, get_eq_ok, modify_eq_ok,
      pure_eq_ok] at h
    obtain ⟨_, _, ⟨-, rfl⟩, _, _, ⟨rfl, rfl⟩, _, _, rfl, rfl, rfl⟩ := h
    simp [Frame.finish, hopen, ht]

theorem user_ne_setField (name file field : String) :
    FunctionDefinition.user name file ≠ .setField field := by
  intro h
  have hn := congrArg (fun d => d.name.length) h
  have hs := congrArg (fun d => d.signature.length) h
  simp only [FunctionDefinition.user, FunctionDefinition.setField, FunctionDefinition.primitive,
    String.length_append] at hn hs
  have hdot : ".".length = 1 := by decide
  omega

theorem mem_parametersFrom_name {n : Nat} {params : List Node} {p : Parameter}
    (h : p ∈ parametersFrom n params) : ∃ node ∈ params, p.name = node.parameterName := by
  induction params generalizing n with
  | nil => cases h
  | cons node rest ih =>
    rcases List.mem_cons.mp h with rfl | h
    · exact ⟨node, List.mem_cons_self, rfl⟩
    · obtain ⟨other, hm, hn⟩ := ih h
      exact ⟨other, List.mem_cons_of_mem _ hm, hn⟩

theorem mentions_of_parameterName {node : Node} {name : String} (h : node.parameterName = name)
    (hn : name ≠ "") : node.Mentions name := by
  cases node with
  | identifier loc other =>
    cases h
    exact .here loc
  | _ => exact absurd h.symm hn

theorem entry_run {definition : FunctionDefinition} {params : List Node} {loc : Location}
    {before : List Block} {u : Unit}
    (hr : Ready ⟨s.enter definition params loc before, []⟩)
    (mention : ∀ node ∈ params, node.Mentions parentName → loose)
    (hbind : bindParameters (s.enteredScope params) (parametersFrom (s.scopes.next + 1) params)
      (s.enter definition params loc before) = .ok u s') :
    Run loose ⟨s.enter definition params loc before, []⟩ {} ⟨s', []⟩ ∧ InBody ⟨s', []⟩ := by
  have hscope : (s.enteredScope params : Id) ∈
      Draft.defined ⟨s.enter definition params loc before, []⟩ := by
    rw [Draft.mem_defined]
    refine .inr ⟨.scope loc (s.enteredScope params), ?_, rfl⟩
    simp [Draft.body, Compilation.enter, Frame.code, Compilation.enteredScope]
  have hrun : Run loose ⟨s.enter definition params loc before, []⟩ {} ⟨s', []⟩ := by
    refine bindParameters_run hr rfl hscope (fun p hp => List.mem_cons_of_mem _ hp) ?_ hbind
    intro p hp hname
    obtain ⟨node, hnode, hn⟩ := mem_parametersFrom_name hp
    exact mention node hnode (mentions_of_parameterName (hn.symm.trans hname) (by decide))
  have hin : InBody ⟨s.enter definition params loc before, []⟩ :=
    .of_stack hr (s.enters_enter definition params loc before).stack
      (s.enters_enter definition params loc before).new rfl
  exact ⟨hrun, hrun.inBody hin⟩

/-- A function is a run from where it is entered; then it joins the output. -/
theorem function_eq_ok {name : String} {params : List Node} {statements : Nat} {loc : Location}
    {before : List Block} {body : Lower Unit} {w : Work} {link : FunctionLink}
    (h : function name params statements loc before body s = .ok link s')
    (hr : Ready ⟨(s.logged (.event (.processFunction name params.length statements))).enter
      (.user name s.file) params loc (leadingIn loc before), []⟩)
    (mention : ∀ node ∈ params, node.Mentions parentName → loose)
    (hbody : Executes loose w body) :
    ∃ s₁ event, Run loose
        ⟨(s.logged (.event (.processFunction name params.length statements))).enter
          (.user name s.file) params loc (leadingIn loc before), []⟩ w ⟨s₁, []⟩ ∧
      (Settles body → Sealed False (leadingIn loc before) → Sealed False s₁.frame.blocks.tail) ∧
      link = ⟨.user name s.file, some s₁.functions.length⟩ ∧
      s' = (s₁.leave loc s.frame).logged event := by
  simp only [function, bind_eq_ok, report_eq_ok, get_eq_ok, enterFunction_eq,
    EStateM.Result.ok.injEq, within_eq_ok, pure_eq_ok] at h
  obtain ⟨_, _, rfl, _, _, ⟨rfl, rfl⟩, _, _, ⟨rfl, rfl⟩, _, _, ⟨rfl, rfl⟩, _, s₀, hbind, _, s₁,
    hb, position, s₂, hfinish, _, _, hpop, rfl, rfl⟩ := h
  obtain ⟨hentry, hin⟩ := entry_run hr mention hbind
  have hrun := hentry.trans (hbody hin hb)
  obtain ⟨rfl, rfl⟩ := finishFunction_eq_ok hfinish
  have hlt : s.enteredScope params < s.enteredScope params + 2 := by omega
  have hkind := hrun.extends.kinds (s.enteredScope params) (Int.ofNat_lt.mpr hlt)
  have hpop := popScope_eq_ok hpop hrun.extends.stack
    (hkind.trans (Compilation.enters_enter _ _ _ _ _).new)
  refine ⟨s₁, _, hrun, fun hsettles hbefore => ?_, rfl, hpop⟩
  exact hsettles hin (hentry.shaped (by simp) (Compilation.shaped_enter _ _ _ _ hbefore)) hb

theorem proper_func {loc : Location} {name file : String} (outer : Frame) (id : Id)
    (hf : s.file = file) (hd : s.frame.definition = .user name file) :
    Value.Proper (s.leave loc outer).file (s.leave loc outer).functions
      (.func id (some ⟨.user name file, some s.functions.length⟩)) := by
  subst hf
  refine ⟨name, s.functions.length, s.frame.finish s.file loc, rfl, ?_, hd⟩
  simp [Compilation.leave]

/-- A nested function joins the output and leaves an object for it, one of the closures of
the function around it. -/
theorem function_run {declared : Option String} {params nodes : List Node} {statements : Nat}
    {loc : Location} {body : Lower Unit} {w : Work} {link : FunctionLink}
    (hr : Ready ⟨s, code⟩) (mention : ∀ node ∈ params, node.Mentions parentName → loose)
    (hbody : Executes loose w body) (settles : Node.anyReturns nodes = false → Settles body)
    (h : function (s.nameFor declared) params statements loc [] body s.spend = .ok link s') :
    Run loose ⟨s, code⟩
        { functions := w.functions ++ [⟨params, nodes⟩]
          names := Node.namesWith declared w.names }
      ⟨{ s' with frame := s'.frame.addClosure s.scopes.next link },
        code ++ [.apply loc s.scopes.next .newObject []]⟩ ∧
    Draft.Yields ⟨{ s' with frame := s'.frame.addClosure s.scopes.next link },
        code ++ [.apply loc s.scopes.next .newObject []]⟩ (.func s.scopes.next (some link)) := by
  have hreport : Run loose ⟨s, code⟩ {} _ :=
    .report s code (.event (.processFunction (s.nameFor declared) params.length statements))
  have henter := (hreport.ready hr).enter (.user (s.nameFor declared) s.file) params loc
  obtain ⟨s₁, event, hrun, hsettled, rfl, rfl⟩ := function_eq_ok h henter mention hbody
  have hfun := Run.function (s := s.logged _) code (.user (s.nameFor declared) s.file) params nodes
    loc rfl (fun hn => hsettled (settles hn) trivial) hrun
  have hscope : s.spend.enteredScope params = s.scopes.next + 2 + params.length := rfl
  have hne : (s.scopes.next : Id) ≠ s.spend.enteredScope params := by
    show (s.scopes.next : Int) ≠ s.spend.enteredScope params
    omega
  have hlt : s.scopes.next < s.spend.enteredScope params + 2 := by omega
  have hkind := hrun.extends.kinds s.scopes.next (Int.ofNat_lt.mpr hlt)
  have hbound := Int.ofNat_lt.mpr (Nat.lt_of_lt_of_le hlt hrun.extends.next)
  refine ⟨(hreport.trans hfun).andThen (.report _ _ event), Draft.has_apply _ _ _ _ _ _ rfl,
    proper_func s.frame _ hrun.extends.file hrun.extends.definition,
    ⟨⟨hbound, ?_⟩, ?_⟩, hbound⟩
  · exact hkind.trans (((Compilation.enters_enter _ _ _ _ _).kinds _).trans
      ((if_neg hne).trans hr.kind?_next))
  · rintro l ⟨⟩
    exact user_ne_setField _ _ _

theorem functionObject_evaluates {params nodes : List Node} {statements : Nat} {loc : Location}
    {body : Lower Unit} {w : Work} (mention : ∀ node ∈ params, node.Mentions parentName → loose)
    (hbody : Executes loose w body) (settles : Node.anyReturns nodes = false → Settles body) :
    Evaluates loose ref { functions := w.functions ++ [⟨params, nodes⟩] }
      (functionObject params statements loc body) := by
  intro s s' code e hs h
  simp only [functionObject, nestedName, addClosure, modifyFrame, bind_eq_ok, fresh_eq_ok,
    functionName_eq_ok, modify_eq_ok, pure_eq_ok] at h
  obtain ⟨_, _, ⟨rfl, rfl⟩, _, _, ⟨_, _, ⟨rfl, rfl⟩, rfl, rfl⟩, link, s₁, hfun, _, _, rfl, rfl,
    rfl⟩ := h
  have hfun : function s.nestedName params statements loc [] body s.spend = .ok link s₁ := hfun
  rw [← s.nameFor_none] at hfun
  exact function_run hs.ready mention hbody settles hfun

end Lower

end ScopeIR
