import Mathlib.Logic.Relation
import ScopeIR.Proofs.Accesses
import ScopeIR.Proofs.Identifiers
import ScopeIR.Stats

/-! The calls of the output. Primitives take a fixed number of operands. Values are called
through the calling primitive and earlier functions directly, with as many operands as they
have parameters; both ways pass the environment that the block of the call belongs to. -/
namespace ScopeIR

variable {loose : Prop} {d d' : Draft} {w : Work} {x : Id} {i : Instruction}
  {functions others : List Function}

/-- The primitives that take a fixed number of operands. -/
inductive FunctionDefinition.Takes : FunctionDefinition → Nat → Prop
  | getField (name : String) : Takes (getField name) 1
  | setField (name : String) : Takes (setField name) 2
  | newObject : Takes newObject 0
  | getFieldDynamic : Takes getFieldDynamic 2
  | setFieldDynamic : Takes setFieldDynamic 3
  | binary (op : String) : Takes (binaryOperator op) 2
  | leading (op : String) : Takes (leadingOperator op) 2
  | unary (op : String) : Takes (unaryOperator op) 1
  | logical (op : String) : Takes (logicalOperator op) 2
  | conditional : Takes conditional 3

/-- What a call with an environment is, where the given functions come earlier. -/
inductive CallShape (earlier : List Function) (x : Id) (callee : FunctionDefinition)
    (operands : List Value) : Prop
  | primitive (takes : callee.Takes operands.length)
  | dynamic (value : Value) (arguments : List Value) (calls : callee = .callDynamic)
      (passed : operands = value :: .ofScope x :: arguments)
  | direct (position : Nat) (g : Function) (arguments : List Value)
      (target : earlier[position]? = some g) (calls : callee = g.definition)
      (passed : operands = .ofScope x :: arguments) (count : operands.length = g.parameters.length)

def Instruction.WellShaped (earlier : List Function) (x : Id) : Instruction → Prop
  | .call _ _ receiver callee operands => receiver = none ∧ ∃ values : List Value,
      operands = values.map some ∧ CallShape earlier x callee values
  | .ret .. | .branch .. | .scope .. => True

theorem CallShape.mono {callee : FunctionDefinition} {operands : List Value}
    (h : CallShape functions x callee operands) (hp : functions <+: others) :
    CallShape others x callee operands := by
  cases h with
  | primitive takes => exact .primitive takes
  | dynamic value arguments calls passed => exact .dynamic value arguments calls passed
  | direct position g arguments target calls passed count =>
    have hkept := getElem?_of_prefix hp target
    exact .direct position g arguments hkept calls passed count

theorem Instruction.WellShaped.mono (h : i.WellShaped functions x) (hp : functions <+: others) :
    i.WellShaped others x := by
  cases i with
  | call loc dest receiver callee operands =>
    obtain ⟨hreceiver, values, hvalues, hshape⟩ := h
    exact ⟨hreceiver, values, hvalues, hshape.mono hp⟩
  | ret | branch | scope => trivial

theorem wellShaped_apply {callee : FunctionDefinition} {operands : List Value}
    (h : CallShape functions x callee operands) (loc : Location) (dest : Id) :
    (Instruction.apply loc dest callee operands).WellShaped functions x :=
  ⟨rfl, operands, rfl, h⟩

theorem wellShaped_newObject (loc : Location) (dest : Id) :
    (Instruction.apply loc dest .newObject []).WellShaped functions x :=
  wellShaped_apply (.primitive .newObject) loc dest

theorem wellShaped_setField (loc : Location) (dest : Id) (name : String) (object value : Value) :
    (Instruction.apply loc dest (.setField name) [object, value]).WellShaped functions x :=
  wellShaped_apply (.primitive (.setField name)) loc dest

theorem CallForm.callShape {s : Compilation} {callee : FunctionDefinition} {operands : List Value}
    (form : CallForm s callee operands) (hx : s.scopes.Innermost x)
    (hf : ∀ f ∈ s.functions, f.parameters ≠ []) : CallShape s.functions x callee operands := by
  cases form with
  | getField name object => exact .primitive (.getField name)
  | setField name object value => exact .primitive (.setField name)
  | getFieldDynamic object key => exact .primitive .getFieldDynamic
  | setFieldDynamic object key value => exact .primitive .setFieldDynamic
  | unary op value => exact .primitive (.unary op)
  | binary op left right => exact .primitive (.binary op)
  | leading op left right => exact .primitive (.leading op)
  | logical op left right => exact .primitive (.logical op)
  | conditional test yes no => exact .primitive .conditional
  | dynamic value y arguments here =>
    exact .dynamic value arguments rfl (by rw [here.eq hx])
  | direct name position g y arguments target definition here count =>
    refine .direct position g arguments target definition.symm (by rw [here.eq hx]) ?_
    have hpos := List.length_pos_iff.mpr (hf g (List.mem_of_getElem? target))
    rw [List.length_cons, count]
    omega

theorem Run.parameters_ne_nil (h : Run loose d w d')
    (hd : ∀ f ∈ d.state.functions, f.parameters ≠ []) :
    ∀ f ∈ d'.state.functions, f.parameters ≠ [] := by
  induction h with
  | trans _ _ ih ih₁ => exact ih₁ (ih hd)
  | object _ _ ih => exact ih hd
  | block _ _ _ _ _ ih => exact ih hd
  | @function s s₁ w _ code definition params body loc _ _ inner ih =>
    intro f hf
    rcases List.mem_append.mp hf with hf | hf
    · exact ih hd f hf
    · cases List.mem_singleton.mp hf
      show s₁.frame.parameters ≠ []
      rw [inner.extends.parameters]
      exact List.cons_ne_nil _ _
  | _ => exact hd

/-- Calls that a run adds in blocks of an environment are well shaped there. -/
theorem Run.wellShaped (h : Run loose d w d') (hr : Ready d) (hd : d.Anchored)
    (hf : ∀ f ∈ d.state.functions, f.parameters ≠ []) (hs : d'.Stands x [i]) :
    d.Stands x [i] ∨ i.WellShaped d'.state.functions x := by
  have hchain := h.extends.chain hr
  induction h with
  | trans h h₁ ih ih₁ =>
    have hr₁ := h.ready hr
    have hd₁ := h.anchored hr hd
    rcases ih₁ hr₁ hd₁ (h.parameters_ne_nil hf) hs (h₁.extends.chain hr₁) with hs | hp
    · exact (ih hr hd hf hs (h.extends.chain hr)).imp_right (·.mono h₁.extends.functions)
    · exact .inr hp
  | call s code loc callee operands form =>
    refine (Draft.of_stands_append hs rfl hchain).imp_right ?_
    rintro ⟨rfl, hx⟩
    exact wellShaped_apply (form.callShape hx hf) loc _
  | create s code loc kind literals =>
    refine (Draft.of_stands_append (s := s) hs rfl hchain).imp_right ?_
    rintro ⟨rfl, -⟩
    exact wellShaped_newObject loc _
  | @object s s₁ code code₁ w y kind inner ih =>
    have hpush := ScopeTable.chain_push_object kind
    have hr' := hr.push kind
    have hs₁ : Draft.Stands ⟨s₁, code₁⟩ x [i] :=
      hs.of_code (List.prefix_refl _) rfl (inner.chain_pop kind hr).symm
    exact (ih hr' (hd.of_blocks rfl hpush) hf hs₁ (inner.extends.chain hr')).imp_left
      (·.of_code (List.prefix_refl _) rfl hpush.symm)
  | @block s s₁ w parent kind rest loc opened chain own inner ih =>
    have hr' := hr.enterBlock loc parent
    have ih := fun hs => ih hr' (anchored_enterBlock loc parent hr) hf hs (inner.extends.chain hr')
    rw [Draft.stands_singleton] at hs ⊢
    obtain ⟨hi, -⟩ | ⟨last, hlast, rfl, hi⟩ := hs
    · cases hi
    rcases Compilation.mem_of_leaveBlock hlast hi with ⟨old, hold, hscope, hi⟩ | ⟨target, rfl⟩
    · rcases ih (Draft.stands_singleton.mpr (.inr ⟨old, hold, hscope, hi⟩)) with hs | hp
      · rw [Draft.stands_singleton] at hs
        obtain ⟨hi, -⟩ | ⟨first, hfirst, hscope, hi⟩ := hs
        · cases hi
        rcases Compilation.mem_of_enterBlock hfirst hi with ⟨old', hold', hscope', hi⟩ | h
        · exact .inl (.inr ⟨old', hold', hscope'.trans hscope, hi⟩)
        · rcases h with ⟨target, rfl⟩ | rfl | rfl
          · exact .inr trivial
          · exact .inr (wellShaped_newObject loc _)
          · exact .inr (wellShaped_setField loc _ _ _ _)
      · exact .inr hp
    · exact .inr trivial
  | @function s s₁ w _ code definition params body loc _ _ inner ih =>
    refine (Draft.of_stands_append (s := s) hs rfl hchain).imp_right ?_
    rintro ⟨rfl, -⟩
    exact wellShaped_newObject loc _
  | start s code scope loc _ _ here => exact .inl (Draft.of_stands_start hs)
  | place s code opened =>
    refine .inl ((Draft.of_stands_extend hs hd opened).elim id fun ⟨hi, hx⟩ => ?_)
    exact Draft.stands_singleton.mpr (.inl ⟨hi, hx⟩)
  | ret s code loc value opened =>
    rcases Draft.of_stands_extend hs hd opened with hs | ⟨hi, hx⟩
    · exact .inl hs
    · rcases List.mem_append.mp hi with hi | hi
      · exact .inl (Draft.stands_singleton.mpr (.inl ⟨hi, hx⟩))
      · cases List.mem_singleton.mp hi
        exact .inr trivial
  | _ => exact .inl (hs.of_code (List.prefix_refl _) rfl hchain.symm)

/-- The code that makes an environment: its declaration, or a new object that is linked to the
environment around it. -/
inductive OpensScope (x : Id) : List Instruction → Prop
  | declares (loc : Location) : OpensScope x [.scope loc x]
  | creates (loc : Location) (dest : Id) (parent : Id) :
      OpensScope x [.apply loc x .newObject [], parentLink loc dest x (.ofScope parent)]

theorem OpensScope.ne_nil {piece : List Instruction} (h : OpensScope x piece) : piece ≠ [] := by
  cases h with
  | declares | creates => exact List.cons_ne_nil _ _

def ScopeTable.IsEnvironment (t : ScopeTable) (x : Id) : Prop :=
  ∃ kind, t.kind? x = some kind ∧ kind.isEnvironment

structure Function.Opens (f : Function) (t : ScopeTable) (x : Id) : Prop where
  environment : t.IsEnvironment x
  code : ∃ piece, OpensScope x piece ∧ ∃ block ∈ f.blocks, piece <:+: block.instructions

structure Draft.Opens (d : Draft) (x : Id) : Prop where
  environment : d.state.scopes.IsEnvironment x
  code : ∃ piece, OpensScope x piece ∧ d.Contains piece

theorem ScopeTable.IsEnvironment.mono {t t' : ScopeTable} (h : t.IsEnvironment x) (ht : t.Sound)
    (kinds : ∀ x : Int, x < t.next → t'.kind? x = t.kind? x) : t'.IsEnvironment x := by
  obtain ⟨kind, hk, he⟩ := h
  exact ⟨kind, (kinds x (ht.ids x kind hk)).trans hk, he⟩

theorem Draft.Opens.mono (h : d.Opens x) (hr : Ready d) (he : Extends d d') : d'.Opens x := by
  obtain ⟨piece, hpiece, hc⟩ := h.code
  exact ⟨h.environment.mono hr.sound he.kinds, piece, hpiece, he.contains hr.blocks _ hc⟩

theorem Draft.Opens.finish {s : Compilation} (h : Draft.Opens ⟨s, []⟩ x)
    (hb : s.frame.blocks ≠ []) (file : String) (loc : Location) :
    (s.frame.finish file loc).Opens s.scopes x := by
  obtain ⟨piece, hpiece, hc⟩ := h.code
  exact ⟨h.environment, piece, hpiece, hc.finish hb file loc⟩

/-- The blocks of the current function belong to environments that it makes, and so does what
is lowered next. -/
structure Draft.Housed (d : Draft) : Prop where
  innermost : ∀ x, d.state.scopes.Innermost x → d.Opens x
  blocks : ∀ x ∈ d.state.frame.blocks.map (·.scope), d.Opens x

theorem Draft.Housed.mono (h : d.Housed) (hr : Ready d) (he : Extends d d')
    (new : ∀ x ∈ d'.state.frame.blocks.map (·.scope),
      x ∈ d.state.frame.blocks.map (·.scope) ∨ d.state.scopes.Innermost x) : d'.Housed where
  innermost x hx := (h.innermost x (hx.of_chain (he.chain hr).symm)).mono hr he
  blocks x hx := ((new x hx).elim (h.blocks x) (h.innermost x)).mono hr he

theorem Draft.Housed.of_table {s : Compilation} {code : List Instruction} {t : ScopeTable}
    (h : Draft.Housed ⟨s, code⟩) (chain : t.chain = s.scopes.chain)
    (kinds : ∀ x, t.kind? x = s.scopes.kind? x) :
    Draft.Housed ⟨{ s with scopes := t }, code⟩ := by
  have hopens : ∀ x, Draft.Opens ⟨s, code⟩ x → Draft.Opens ⟨{ s with scopes := t }, code⟩ x := by
    rintro x ⟨⟨kind, hk, he⟩, hc⟩
    exact ⟨⟨kind, (kinds x).trans hk, he⟩, hc⟩
  exact ⟨fun x hx => hopens x (h.innermost x (hx.of_chain chain.symm)),
    fun x hx => hopens x (h.blocks x hx)⟩

theorem Draft.Housed.enterBlock {s : Compilation} (h : Draft.Housed ⟨s, []⟩) (loc : Location)
    (parent : Id) (hr : Ready ⟨s, []⟩) : Draft.Housed ⟨s.enterBlock loc parent, []⟩ := by
  have henter := s.enters_enterBlock loc parent
  have hnew : Draft.Opens ⟨s.enterBlock loc parent, []⟩ s.scopes.next :=
    ⟨⟨.block, henter.new, rfl⟩, _, .creates loc (s.scopes.next + 1 : Nat) parent,
      .inr ⟨_, List.mem_cons_self, List.infix_rfl⟩⟩
  refine ⟨fun x hx => ?_, fun x hx => ?_⟩
  · rw [hx.eq ⟨_, _, henter.chain hr.sound rfl⟩]
    exact hnew
  · rw [Compilation.enterBlock, Frame.scopes_extend, Frame.scopes_advance] at hx
    rcases List.mem_cons.mp hx with rfl | hx
    · exact hnew
    · obtain ⟨henv, piece, hpiece, hc⟩ := h.blocks x hx
      refine ⟨henv.mono hr.sound fun y hy => henter.old hy, piece, hpiece, ?_⟩
      obtain ⟨block, hb, hc⟩ := hc.resolve_left fun hc =>
        hpiece.ne_nil (List.eq_nil_of_infix_nil hc)
      obtain ⟨grown, hg, hgrow⟩ := s.exists_block_enterBlock loc parent hb
      exact .inr ⟨grown, hg, hc.trans hgrow.code.isInfix⟩

theorem Compilation.mem_scopes_leaveBlock {s : Compilation} {loc : Location} {parent : Id}
    (h : x ∈ (s.leaveBlock loc parent).frame.blocks.map (·.scope)) :
    x = parent ∨ x ∈ s.frame.blocks.map (·.scope) := by
  rcases s.frame_leaveBlock loc parent with hf | ⟨-, hf⟩
  · exact .inr (hf ▸ h)
  · rw [hf, Frame.scopes_advance] at h
    exact List.mem_cons.mp h

/-- Environments stay those that the function makes. -/
theorem Run.housed (h : Run loose d w d') (hr : Ready d) (hd : d.Housed) : d'.Housed := by
  have hext := h.extends
  induction h with
  | trans h h₁ ih ih₁ =>
    exact ih₁ (h.ready hr) (ih hr hd h.extends) h₁.extends
  | @object s s₁ code code₁ w y kind inner ih =>
    have hpush : Draft.Housed ⟨{ s with scopes := s.scopes.push y }, code⟩ :=
      hd.of_table (ScopeTable.chain_push_object kind) fun x => s.scopes.kind?_push y x
    exact (ih (hr.push kind) hpush inner.extends).of_table (inner.chain_pop kind hr) fun _ => rfl
  | @block s s₁ w parent kind rest loc opened chain own inner ih =>
    have hinner := ih (hr.enterBlock loc parent) (hd.enterBlock loc parent hr) inner.extends
    refine ⟨fun x hx => ?_, fun x hx => ?_⟩
    · exact (hd.innermost x (hx.of_chain (hext.chain hr).symm)).mono hr hext
    · rcases Compilation.mem_scopes_leaveBlock hx with rfl | hx
      · exact (hd.innermost x ⟨kind, rest, chain⟩).mono hr hext
      · obtain ⟨henv, piece, hpiece, hc⟩ := hinner.blocks x hx
        exact ⟨henv, piece, hpiece, Compilation.contains_leaveBlock loc parent hc⟩
  | start s code scope loc _ _ here =>
    refine hd.mono hr hext fun x hx => ?_
    rcases List.mem_cons.mp hx with rfl | hx
    · exact .inr here
    · exact .inl hx
  | place s code opened => exact hd.mono hr hext fun x hx => .inl (by simpa using hx)
  | ret s code loc value opened => exact hd.mono hr hext fun x hx => .inl (by simpa using hx)
  | _ => exact hd.mono hr hext fun x hx => .inl hx

structure Function.WellCalled (f : Function) (earlier : List Function) (t : ScopeTable) :
    Prop where
  opens : ∀ block ∈ f.blocks, f.Opens t block.scope
  calls : ∀ block ∈ f.blocks, ∀ i ∈ block.instructions, i.WellShaped earlier block.scope

theorem Function.WellCalled.mono {f : Function} {t t' : ScopeTable}
    (h : f.WellCalled functions t) (ht : t.Sound)
    (kinds : ∀ x : Int, x < t.next → t'.kind? x = t.kind? x) : f.WellCalled functions t' where
  opens block hb :=
    have ho := h.opens block hb
    ⟨ho.environment.mono ht kinds, ho.code⟩
  calls := h.calls

theorem Run.wellCalled_finish {s s₁ : Compilation} (h : Run loose ⟨s, []⟩ w ⟨s₁, []⟩)
    (hr : Ready ⟨s, []⟩) (ha : Draft.Anchored ⟨s, []⟩) (hd : Draft.Housed ⟨s, []⟩)
    (hf : ∀ f ∈ s.functions, f.parameters ≠ [])
    (calls : ∀ block ∈ s.frame.blocks, ∀ i ∈ block.instructions,
      i.WellShaped s.functions block.scope) (file : String) (loc : Location) :
    (s₁.frame.finish file loc).WellCalled s₁.functions s₁.scopes where
  opens block hb := by
    have hscope : block.scope ∈ s₁.frame.blocks.map (·.scope) := by
      rw [← List.mem_reverse, ← Frame.scopes_finish s₁.frame file loc]
      exact List.mem_map_of_mem hb
    exact ((h.housed hr hd).blocks _ hscope).finish (h.extends.blocks hr.blocks) file loc
  calls block hb i hi := by
    rcases Frame.mem_of_finish hb hi with ⟨old, hold, hscope, hi⟩ | rfl
    · have hs : Draft.Stands ⟨s₁, []⟩ block.scope [i] :=
        Draft.stands_singleton.mpr (.inr ⟨old, hold, hscope, hi⟩)
      rcases h.wellShaped hr ha hf hs with hs | hp
      · rw [Draft.stands_singleton] at hs
        obtain ⟨hi, -⟩ | ⟨first, hfirst, hscope, hi⟩ := hs
        · cases hi
        · exact hscope ▸ (calls first hfirst i hi).mono h.extends.functions
      · exact hp
    · trivial

theorem Run.wellCalled_entered {s s₁ : Compilation} {definition : FunctionDefinition}
    {params : List Node} {loc : Location} {before : List Block}
    (h : Run loose ⟨s.enter definition params loc before, []⟩ w ⟨s₁, []⟩)
    (hr : Ready ⟨s.enter definition params loc before, []⟩)
    (hx : (s.enter definition params loc before).scopes.Innermost (s.enteredScope params))
    (hf : ∀ f ∈ s.functions, f.parameters ≠ [])
    (opens : ∀ block ∈ before,
      Draft.Opens ⟨s.enter definition params loc before, []⟩ block.scope)
    (calls : ∀ block ∈ before, ∀ i ∈ block.instructions, i.WellShaped s.functions block.scope)
    (file : String) : (s₁.frame.finish file loc).WellCalled s₁.functions s₁.scopes := by
  have hrecord : Draft.Opens ⟨s.enter definition params loc before, []⟩ (s.enteredScope params) :=
    ⟨⟨.function, (s.enters_enter definition params loc before).new, rfl⟩, _, .declares loc,
      .inr ⟨_, List.mem_cons_self, List.infix_append [] _ _⟩⟩
  refine h.wellCalled_finish hr (fun _ => ⟨_, _, rfl, hx⟩) ⟨fun x hx' => ?_, fun x hx' => ?_⟩ hf
    (List.forall_mem_cons.mpr ⟨?_, calls⟩) file loc
  · exact hx'.eq hx ▸ hrecord
  · rcases List.mem_cons.mp hx' with rfl | hx'
    · exact hrecord
    · obtain ⟨block, hb, rfl⟩ := List.mem_map.mp hx'
      exact opens block hb
  · intro i hi
    rcases List.mem_cons.mp hi with rfl | hi
    · trivial
    · cases List.mem_singleton.mp hi
      exact wellShaped_setField loc _ _ _ _

theorem eq_of_getElem?_append {functions : List Function} {f g : Function} {position : Nat}
    (hle : functions.length ≤ position) (h : (functions ++ [f])[position]? = some g) :
    position = functions.length ∧ g = f := by
  rw [List.getElem?_append_right hle, List.getElem?_singleton] at h
  split at h
  · exact ⟨by omega, (Option.some.inj h).symm⟩
  · cases h

theorem Run.wellCalled (h : Run loose d w d') (hr : Ready d)
    (hf : ∀ f ∈ d.state.functions, f.parameters ≠ []) {position : Nat} {f : Function}
    (hp : d.state.functions.length ≤ position) (hg : d'.state.functions[position]? = some f) :
    f.WellCalled (d'.state.functions.take position) d'.state.scopes := by
  -- Steps that end no function have none to speak of.
  have hnew : ∀ {functions : List Function}, functions.length ≤ position →
      functions[position]? ≠ some f := by
    intro functions hle
    rw [List.getElem?_eq_none hle]
    exact (Option.some_ne_none f).symm
  induction h with
  | @trans d d₁ d₂ w w₁ h h₁ ih ih₁ =>
    have hr₁ := h.ready hr
    by_cases hlt : position < d₁.state.functions.length
    · have hkept := List.prefix_iff_getElem?.mp h₁.extends.functions position hlt
      have hg₁ : d₁.state.functions[position]? = some f := by
        rw [List.getElem?_eq_getElem hlt, ← hg, hkept]
      have htake := List.prefix_iff_eq_take.mp ((List.take_prefix position _).trans
        h₁.extends.functions)
      rw [List.length_take, Nat.min_eq_left (Nat.le_of_lt hlt)] at htake
      rw [← htake]
      exact (ih hr hf hp hg₁).mono hr₁.sound h₁.extends.kinds
    · exact ih₁ hr₁ (h.parameters_ne_nil hf) (Nat.le_of_not_lt hlt) hg
  | object kind inner ih =>
    exact (ih (hr.push kind) hf hp hg).mono (inner.ready (hr.push kind)).sound fun _ _ => rfl
  | @block s s₁ w parent kind rest loc opened chain own inner ih =>
    have hr' := hr.enterBlock loc parent
    exact (ih hr' hf hp hg).mono (inner.ready hr').sound fun _ _ => rfl
  | @function s s₁ w _ code definition params body loc _ _ inner ih =>
    have hr' := hr.enter definition params loc
    have hsound := (inner.ready hr').sound
    by_cases hlt : position < s₁.functions.length
    · have hg₁ : s₁.functions[position]? = some f := by
        rwa [Compilation.leave, List.getElem?_append_left hlt] at hg
      rw [Compilation.leave, List.take_append_of_le_length (Nat.le_of_lt hlt)]
      exact (ih hr' hf hp hg₁).mono hsound fun _ _ => rfl
    · obtain ⟨rfl, rfl⟩ := eq_of_getElem?_append (Nat.le_of_not_lt hlt) hg
      have hchain := (s.enters_spend definition params loc []).chain hr.sound rfl
      rw [Compilation.leave, List.take_left]
      exact (inner.wellCalled_entered hr' ⟨_, _, hchain⟩ hf (List.forall_mem_nil _)
        (List.forall_mem_nil _) s₁.file).mono hsound fun _ _ => rfl
  | _ => exact absurd hg (hnew hp)

theorem Prologue.wellShaped {loc : Location} {n : Nat} {hosted : List Constant}
    {code : List Instruction} (h : Prologue loc n hosted code) :
    ∀ i ∈ code, i.WellShaped functions x := by
  induction h with
  | scope => exact List.forall_mem_singleton.mpr trivial
  | host _ _ ih => exact ih
  | seed name value _ _ ih =>
    intro i hi
    rcases List.mem_append.mp hi with hi | hi
    · exact ih i hi
    · cases List.mem_singleton.mp hi
      exact wellShaped_setField loc _ _ _ _

theorem ProgramRun.wellCalled {file : String} {hosts : List String} {node : Node}
    {result : Compilation} (p : ProgramRun loose file hosts node functions result)
    {position : Nat} {f : Function} (hg : functions[position]? = some f) :
    f.WellCalled (functions.take position) result.scopes := by
  have hstart : (p.seeded.enterMain file p.loc p.prologue).functions = [] := p.seeds.functions
  have hnone : ∀ f ∈ (p.seeded.enterMain file p.loc p.prologue).functions, f.parameters ≠ [] := by
    simp [hstart]
  have hsound := (p.run.ready p.seeds.ready).sound
  have hout : (p.final.functions ++ [p.final.frame.finish file p.loc])[position]? = some f := by
    rwa [← p.output]
  suffices h : f.WellCalled ((p.final.functions ++ [p.final.frame.finish file p.loc]).take position)
      p.final.scopes by
    rw [← p.output] at h
    exact h.mono hsound fun x _ => p.kinds x
  by_cases hlt : position < p.final.functions.length
  · rw [List.getElem?_append_left hlt] at hout
    rw [List.take_append_of_le_length (Nat.le_of_lt hlt)]
    exact p.run.wellCalled p.seeds.ready hnone (by simp [hstart]) hout
  -- The implicit function, which comes last.
  · obtain ⟨rfl, rfl⟩ := eq_of_getElem?_append (Nat.le_of_not_lt hlt) hout
    rw [List.take_left]
    have henter := p.seeded.enters_enter (.user mainName file) [] p.loc
      [⟨0, 0, p.prologue ++ [.branch p.loc (some (.own 1))], p.loc⟩]
    have hpos : (0 : Int) < p.seeded.scopes.next := Int.ofNat_lt.mpr p.seeds.prologue.next_pos
    refine p.run.wellCalled_entered p.seeds.ready ⟨_, _, henter.chain p.seeds.sound rfl⟩ hnone
      (List.forall_mem_singleton.mpr ?_) (List.forall_mem_singleton.mpr fun i hi => ?_) file
    · refine ⟨⟨.global, (henter.old hpos).trans ((p.seeds.kinds 0).trans (if_pos rfl)), rfl⟩, _,
        .declares p.loc, .inr ⟨_, List.mem_cons_of_mem _ List.mem_cons_self, ?_⟩⟩
      exact (List.singleton_infix_iff _ _).mpr (List.mem_append_left _ p.seeds.prologue.scope_mem)
    · rcases List.mem_append.mp hi with hi | hi
      · exact p.seeds.prologue.wellShaped i hi
      · cases List.mem_singleton.mp hi
        trivial

theorem FunctionDefinition.Takes.name_eq {callee : FunctionDefinition} {n : Nat}
    (h : callee.Takes n) : callee.name = callee.signature := by
  cases h with
  | leading op =>
    unfold FunctionDefinition.leadingOperator
    split
    · split <;> rfl
    · rfl
  | _ => rfl

structure Function.DirectlyCalls (f : Function) (c : Instruction) (callee : FunctionDefinition) :
    Prop where
  placed : ∃ block ∈ f.blocks, c ∈ block.instructions
  calls : Stats.callee? c = some callee
  named : callee.name ≠ callee.signature

/-- Each direct call leads to the place of a function that it fits. -/
def Resolves (functions : List Function) (target : Nat → Instruction → Nat) : Prop :=
  ∀ (i : Nat) (f : Function) (c : Instruction) (callee : FunctionDefinition),
    functions[i]? = some f → f.DirectlyCalls c callee →
    ∃ g, functions[target i c]? = some g ∧ g.definition = callee ∧
      (Stats.operands c).length = g.parameters.length

/-- A call of the function at the first place leads to the second place. -/
def Leads (functions : List Function) (target : Nat → Instruction → Nat) (i j : Nat) : Prop :=
  ∃ f c callee, functions[i]? = some f ∧ f.DirectlyCalls c callee ∧ target i c = j

/-- A call of the function at the first place has the definition of that at the second. -/
def NamesCallee (functions : List Function) (i j : Nat) : Prop :=
  ∃ f g c, functions[i]? = some f ∧ functions[j]? = some g ∧ f.DirectlyCalls c g.definition

theorem Function.WellCalled.exists_target {f : Function} {t : ScopeTable} {n : Nat}
    {c : Instruction} {callee : FunctionDefinition} (h : f.WellCalled (functions.take n) t)
    (hc : f.DirectlyCalls c callee) : ∃ (j : Nat) (g : Function), j < n ∧
      functions[j]? = some g ∧ g.definition = callee ∧
      (Stats.operands c).length = g.parameters.length := by
  obtain ⟨block, hb, hi⟩ := hc.placed
  have hshape := h.calls block hb c hi
  cases c with
  | call loc dest receiver callee' operands =>
    cases hc.calls
    obtain ⟨-, values, rfl, hshape⟩ := hshape
    cases hshape with
    | primitive takes => exact absurd takes.name_eq hc.named
    | dynamic value arguments calls passed =>
      subst calls
      exact absurd rfl hc.named
    | direct position g arguments target calls passed count =>
      rw [List.getElem?_take] at target
      split at target
      · exact ⟨position, g, ‹_›, target, calls.symm, (List.length_map _).trans count⟩
      · cases target
  | ret | branch | scope => cases hc.calls

theorem not_transGen_self {r : Nat → Nat → Prop} (h : ∀ i j, r i j → j < i) (i : Nat) :
    ¬ Relation.TransGen r i i := by
  have hlt : ∀ i j, Relation.TransGen r i j → j < i := by
    intro i j hij
    induction hij with
    | single hij => exact h i _ hij
    | tail _ hjk ih => exact (h _ _ hjk).trans ih
  exact fun hi => Nat.lt_irrefl i (hlt i i hi)

/-- Direct calls can be taken to lead to earlier functions. -/
theorem exists_resolves {t : ScopeTable} (h : ∀ (i : Nat) (f : Function),
      functions[i]? = some f → f.WellCalled (functions.take i) t) :
    ∃ target, Resolves functions target ∧ ∀ i j, Leads functions target i j → j < i := by
  have hexists : ∀ (i : Nat) (c : Instruction), ∃ j : Nat, ∀ f callee, functions[i]? = some f →
      f.DirectlyCalls c callee → j < i ∧ ∃ g, functions[j]? = some g ∧ g.definition = callee ∧
        (Stats.operands c).length = g.parameters.length := by
    intro i c
    by_cases hc : ∃ f callee, functions[i]? = some f ∧ f.DirectlyCalls c callee
    · obtain ⟨f, callee, hf, hc⟩ := hc
      obtain ⟨j, g, hj, hg⟩ := (h i f hf).exists_target hc
      refine ⟨j, fun f' callee' _ hc' => ?_⟩
      cases hc.calls.symm.trans hc'.calls
      exact ⟨hj, g, hg⟩
    · exact ⟨0, fun f callee hf hd => absurd ⟨f, callee, hf, hd⟩ hc⟩
  choose target htarget using hexists
  refine ⟨target, fun i f c callee hf hc => (htarget i c f callee hf hc).2, ?_⟩
  rintro i _ ⟨f, c, callee, hf, hc, rfl⟩
  exact (htarget i c f callee hf hc).1

theorem lt_of_namesCallee {t : ScopeTable} (h : ∀ (i : Nat) (f : Function),
      functions[i]? = some f → f.WellCalled (functions.take i) t)
    (hnodup : (functions.map (·.definition)).Nodup) (i j : Nat)
    (hij : NamesCallee functions i j) : j < i := by
  obtain ⟨f, g, c, hf, hg, hc⟩ := hij
  obtain ⟨j', g', hj, hg', hd, -⟩ := (h i f hf).exists_target hc
  have hsame : (functions.map (·.definition))[j']? = (functions.map (·.definition))[j]? := by
    rw [List.getElem?_map, List.getElem?_map, hg, hg', Option.map_some, Option.map_some, hd]
  have hlt : j' < (functions.map (·.definition)).length := by
    rw [List.length_map]
    exact (List.getElem?_eq_some_iff.mp hg').1
  rwa [(List.getElem?_inj hlt hnodup).mp hsame] at hj

/-- Calls are well shaped. In each function the blocks belong to environments that it makes. A
call has no receiver. It calls a primitive with the number of operands that this takes, or a
value, with the environment as second operand, or an earlier function, with the environment
as first operand and one operand for each parameter. So direct calls form no cycle: each leads
to an earlier function. Definitions may repeat; where they do not, this is the only function
that the callee can be. -/
theorem calls_wellShaped {file : String} {hosts : List String} {node : Node} {s : Compilation}
    (h : Lower.program hosts node (.start file) = .ok functions s) :
    (∀ (i : Nat) (f : Function), functions[i]? = some f →
      f.WellCalled (functions.take i) s.scopes) ∧
    (∃ target, Resolves functions target ∧
      ∀ i, ¬ Relation.TransGen (Leads functions target) i i) ∧
    ((functions.map (·.definition)).Nodup →
      ∀ i, ¬ Relation.TransGen (NamesCallee functions) i i) := by
  obtain ⟨p⟩ := Lower.program_eq_ok (fun _ => trivial : Quiet True node) h
  have hcalled : ∀ (i : Nat) (f : Function), functions[i]? = some f →
      f.WellCalled (functions.take i) s.scopes := fun i f hf => p.wellCalled hf
  obtain ⟨target, hresolves, hleads⟩ := exists_resolves hcalled
  exact ⟨hcalled, ⟨target, hresolves, not_transGen_self hleads⟩,
    fun hnodup => not_transGen_self (lt_of_namesCallee hcalled hnodup)⟩

/-- `function f(a) {} f(0, ""); g(f);` -/
def truncatedCall : Node :=
  .program {} "script" [
    .functionDeclaration {} (.identifier {} "f") [.identifier {} "a"] (.blockStatement {} []),
    .expressionStatement {} (.call {} (.identifier {} "f") [
      .literal {} { value := .num .zero }, .literal {} { value := .str "" }] false),
    .expressionStatement {} (.call {} (.identifier {} "g") [.identifier {} "f"] false)]

theorem truncatedCall_wellShaped : ∃ functions s,
    Lower.program [] truncatedCall (.start "f.js") = .ok functions s ∧
    (functions.flatMap (·.code)).filterMap (fun i => if Stats.callee? i = some .callDynamic ∨
      Stats.callee? i = some (.user "f" "f.js") then some (Stats.operands i).length else none) =
      [2, 3] ∧
    (functions.map (·.definition)).Nodup ∧
    (∀ (i : Nat) (f : Function), functions[i]? = some f →
      f.WellCalled (functions.take i) s.scopes) ∧
    (∃ target, Resolves functions target ∧
      ∀ i, ¬ Relation.TransGen (Leads functions target) i i) ∧
    ∀ i, ¬ Relation.TransGen (NamesCallee functions) i i := by
  obtain ⟨functions, s, h, hs⟩ := Lower.exists_program_ok "f.js" [] truncatedCall
    (fun functions _ => ((functions.flatMap Function.code).filterMap fun i =>
      if Stats.callee? i = some .callDynamic ∨ Stats.callee? i = some (.user "f" "f.js") then
        some (Stats.operands i).length else none,
      decide (functions.map Function.definition).Nodup))
    (b := ([2, 3], true)) (by decide +kernel)
  simp only [Prod.mk.injEq, decide_eq_true_eq] at hs
  obtain ⟨hcalled, hresolves, hnames⟩ := calls_wellShaped h
  exact ⟨functions, s, h, hs.1, hs.2, hcalled, hresolves, hnames hs.2⟩

end ScopeIR
