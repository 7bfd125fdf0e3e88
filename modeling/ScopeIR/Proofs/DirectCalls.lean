import ScopeIR.Proofs.Addressing
import ScopeIR.Proofs.Annotations
import ScopeIR.Proofs.Availability
import ScopeIR.Proofs.CallShapes

/-! Calls of functions of the same file. Such a call passes the environment that its block
belongs to. The callee resolves its free names from the environment that its object was
created in, so the two agree only where both stand in blocks of one environment. -/
namespace ScopeIR

variable {loose : Prop} {d d' : Draft} {w : Work} {x : Id} {piece : List Instruction}
  {i : Instruction}

/-- If the instruction calls a function of the file, it is one of the functions, and it is
passed the environment before its arguments. -/
def Instruction.Passes (functions : List Function) (file : String) (x : Id) (i : Instruction) :
    Prop :=
  ∀ loc dest receiver name operands, i = .call loc dest receiver (.user name file) operands →
    ∃ (arguments : List (Option Value)) (position : Nat) (g : Function),
      operands = some (.ofScope x) :: arguments ∧ functions[position]? = some g ∧
      g.definition = .user name file ∧ arguments.length = g.parameters.length - 1

theorem Instruction.Passes.mono {functions others : List Function} {file : String}
    (h : i.Passes functions file x) (hp : functions <+: others) : i.Passes others file x := by
  intro loc dest receiver name operands hi
  obtain ⟨arguments, position, g, ho, hg, hrest⟩ := h loc dest receiver name operands hi
  exact ⟨arguments, position, g, ho, getElem?_of_prefix hp hg, hrest⟩

theorem Instruction.WellShaped.passes {functions : List Function} (h : i.WellShaped functions x)
    (file : String) : i.Passes functions file x := by
  intro loc dest receiver name operands hi
  subst hi
  obtain ⟨-, values, rfl, hshape⟩ := h
  cases hshape with
  | primitive takes => exact absurd takes.name_eq (FunctionDefinition.name_user_ne name file)
  | dynamic value arguments calls passed =>
    refine absurd ?_ (FunctionDefinition.name_user_ne name file)
    rw [calls]
    rfl
  | direct position g arguments target calls passed count =>
    subst passed
    refine ⟨arguments.map some, position, g, rfl, target, calls.symm, ?_⟩
    rw [List.length_cons] at count
    rw [List.length_map]
    omega

/-- The blocks belong to scopes of the function, and calls pass the scope of their block. -/
structure Function.Situated (f : Function) (functions : List Function) (file : String) : Prop where
  scopes : f.blocks.map (·.scope) ⊆ f.defined
  passes : ∀ block ∈ f.blocks, ∀ i ∈ block.instructions, i.Passes functions file block.scope

theorem Function.Opens.mem_defined {f : Function} {t : ScopeTable} (h : f.Opens t x) :
    x ∈ f.defined := by
  obtain ⟨piece, hpiece, block, hb, hc⟩ := h.code
  obtain ⟨i, hi, hd⟩ : ∃ i ∈ piece, i.defined? = some x := by
    cases hpiece with
    | declares | creates => exact ⟨_, List.mem_cons_self, rfl⟩
  refine List.mem_append_right _ (List.mem_filterMap.mpr ⟨i, ?_, hd⟩)
  exact List.mem_flatMap.mpr ⟨block, hb, hc.subset hi⟩

theorem ProgramRun.situated {file : String} {hosts : List String} {node : Node}
    {functions : List Function} {result : Compilation}
    (p : ProgramRun loose file hosts node functions result) :
    ∀ f ∈ functions, f.Situated p.final.functions file := by
  intro f hf
  obtain ⟨position, hg⟩ := List.mem_iff_getElem?.mp hf
  have hcalled := p.wellCalled hg
  have hle : position ≤ p.final.functions.length := by
    have hlt := (List.getElem?_eq_some_iff.mp hg).1
    have hlength := congrArg List.length p.output
    rw [List.length_append, List.length_singleton] at hlength
    omega
  have hearlier : functions.take position <+: p.final.functions := by
    have htake : (p.final.functions ++ [p.final.frame.finish file p.loc]).take position =
        p.final.functions.take position := List.take_append_of_le_length hle
    rw [← p.output] at htake
    rw [htake]
    exact List.take_prefix _ _
  refine ⟨fun x hx => ?_, fun block hb i hi => ((hcalled.calls block hb i hi).passes file).mono
    hearlier⟩
  obtain ⟨block, hb, rfl⟩ := List.mem_map.mp hx
  exact (hcalled.opens block hb).mem_defined

/-- The object that the link refers to is created in a block of the environment. -/
def Function.Creates (f : Function) (link : FunctionLink) (x : Id) : Prop :=
  ∃ loc id, (id, some link) ∈ f.closures ∧ ∃ block ∈ f.blocks, block.scope = x ∧
    .apply loc id .newObject [] ∈ block.instructions

/-- The name was looked up past the record of the function from the environment on. -/
def Function.ResolvesFrom (g : Function) (a : Access) (x : Id) : Prop :=
  ∃ inner record kind outer, g.Activates record ∧
    a.scopes.chain = inner ++ (record, .function) :: (x, kind) :: outer

def Draft.Creates (d : Draft) (link : FunctionLink) (x : Id) : Prop :=
  (∃ loc id, (id, some link) ∈ d.state.frame.closures ∧
    d.Stands x [.apply loc id .newObject []]) ∨ ∃ f ∈ d.state.functions, f.Creates link x

theorem Run.creates (h : Run loose d w d') (hr : Ready d) (hd : d.Anchored) {link : FunctionLink}
    (hc : d.Creates link x) : d'.Creates link x := by
  refine hc.imp (fun ⟨loc, id, hid, hs⟩ => ?_) fun ⟨f, hf, hc⟩ => ?_
  · exact ⟨loc, id, h.closures_subset hid, h.stands hr hd (List.cons_ne_nil _ _) hs⟩
  · exact ⟨f, h.extends.functions.subset hf, hc⟩

/-- Parameters of functions that were entered are older. -/
def Draft.Aged (d : Draft) : Prop :=
  ∀ a ∈ d.state.accesses, ¬ EnteredSince d.state.scopes.next a.parameters

theorem Ready.not_enteredSince (hr : Ready d) :
    ¬ EnteredSince d.state.scopes.next d.state.frame.parameters := by
  rintro ⟨p, rest, hp, hle⟩
  have hlt := hr.parameter_lt (hp ▸ List.mem_cons_self : p ∈ d.state.frame.parameters)
  exact absurd hlt (Int.not_lt.mpr hle)

theorem Draft.Aged.mono (h : d.Aged) {d' : Draft} (accesses : d'.state.accesses = d.state.accesses)
    (next : d.state.scopes.next ≤ d'.state.scopes.next) : d'.Aged := by
  intro a ha hs
  exact h a (accesses ▸ ha) (hs.mono next)

theorem Run.aged (h : Run loose d w d') (hr : Ready d) (hd : d.Aged) : d'.Aged := by
  have hnext := h.extends.next
  induction h with
  | trans h h₁ ih ih₁ =>
    exact ih₁ (h.ready hr) (ih hr hd h.extends.next) h₁.extends.next
  | read s code a parameters _ _ _ _ =>
    refine List.forall_mem_cons.mpr ⟨?_, hd⟩
    rw [parameters]
    exact hr.not_enteredSince
  | write s code a owner value _ _ parameters _ _ _ _ =>
    refine List.forall_mem_cons.mpr ⟨?_, hd⟩
    rw [parameters]
    exact hr.not_enteredSince
  | object kind inner ih => exact ih (hr.push kind) hd inner.extends.next
  | @block s s₁ w parent kind rest loc opened chain own inner ih =>
    have henter := (s.enters_enterBlock loc parent).next_le
    exact ih (hr.enterBlock loc parent) (hd.mono rfl henter) inner.extends.next
  | @function s s₁ w _ code definition params body loc _ _ inner ih =>
    have henter := (s.enters_spend definition params loc []).next_le
    exact ih (hr.enter definition params loc) (hd.mono rfl henter) inner.extends.next
  | _ => exact hd.mono rfl hnext

/-- Accesses that a run records were made inside the environments there were, in the current
function or in one entered since. -/
theorem Run.access_chain (h : Run loose d w d') (hr : Ready d) :
    ∀ a ∈ d'.state.accesses, a ∈ d.state.accesses ∨
      (∃ inner, a.scopes.chain = inner ++ d.state.scopes.chain) ∧
      (a.parameters = d.state.frame.parameters ∨
        EnteredSince d.state.scopes.next a.parameters) := by
  induction h with
  | trans h h₁ ih ih₁ =>
    intro a ha
    rcases ih₁ (h.ready hr) a ha with ha | ⟨hchain, hp⟩
    · exact ih hr a ha
    · rw [h.extends.chain hr] at hchain
      rw [h.extends.parameters] at hp
      exact .inr ⟨hchain, hp.imp_right (·.mono h.extends.next)⟩
  | read s code a parameters chain _ _ _ =>
    refine List.forall_mem_cons.mpr ⟨.inr ⟨⟨[], chain⟩, .inl parameters⟩, fun a => .inl⟩
  | write s code a owner value _ _ parameters chain _ _ _ =>
    refine List.forall_mem_cons.mpr ⟨.inr ⟨⟨[], chain⟩, .inl parameters⟩, fun a => .inl⟩
  | @object s s₁ code code₁ w y kind inner ih =>
    have hpush := ScopeTable.chain_push_object kind
    exact fun a ha => (ih (hr.push kind) a ha).imp_right fun ⟨⟨env, h⟩, hp⟩ =>
      ⟨⟨env, h.trans (congrArg _ hpush)⟩, hp⟩
  | @block s s₁ w parent kind rest loc opened chain own inner ih =>
    have henter := s.enters_enterBlock loc parent
    refine fun a ha => (ih (hr.enterBlock loc parent) a ha).imp_right fun ⟨⟨env, h⟩, hp⟩ => ?_
    rw [henter.chain hr.sound rfl] at h
    rw [s.parameters_enterBlock] at hp
    exact ⟨⟨env ++ [_], by simpa using h⟩, hp.imp_right (·.mono henter.next_le)⟩
  | @function s s₁ w _ code definition params body loc _ _ inner ih =>
    have henter := s.enters_spend definition params loc []
    refine fun a ha => (ih (hr.enter definition params loc) a ha).imp_right
      fun ⟨⟨env, h⟩, hp⟩ => ?_
    rw [henter.chain hr.sound rfl] at h
    refine ⟨⟨env ++ [_], by simpa using h⟩, .inr ?_⟩
    rcases hp with hp | hp
    · exact ⟨_, _, hp, Int.ofNat_le.mpr (Nat.le_succ _)⟩
    · exact hp.mono henter.next_le
  | _ => exact fun _ ha => .inl ha

theorem Draft.Creates.finish {s : Compilation} {link : FunctionLink} (file : String)
    (loc : Location) (h : Draft.Creates ⟨s, []⟩ link x) :
    ∃ f ∈ s.functions ++ [s.frame.finish file loc], f.Creates link x := by
  rcases h with ⟨loc', id, hid, hs⟩ | ⟨f, hf, hc⟩
  · obtain ⟨block, hb, hx, hi⟩ := hs.finish (List.cons_ne_nil _ _) file loc
    exact ⟨_, List.mem_append_right _ List.mem_cons_self, loc', id, hid, block, hb, hx,
      hi.subset List.mem_cons_self⟩
  · exact ⟨f, List.mem_append_left _ hf, hc⟩

/-- The functions that end in a run, with what they were entered since: their object is
created in the environment that they resolve names from. -/
theorem Run.created (h : Run loose d w d') (hr : Ready d) (hd : d.Anchored) (ha : d.Aged)
    {position : Nat} {g : Function} (hp : d.state.functions.length ≤ position)
    (hg : d'.state.functions[position]? = some g) :
    (EnteredSince d.state.scopes.next g.parameters ∧
      ¬ EnteredSince d'.state.scopes.next g.parameters) ∧
    ∃ x, d'.Creates ⟨g.definition, some position⟩ x ∧
      ∀ a ∈ d'.state.accesses, a.parameters = g.parameters → g.ResolvesFrom a x := by
  -- Steps that end no function have none to speak of.
  have hnew : ∀ {functions : List Function}, functions.length ≤ position →
      functions[position]? ≠ some g := by
    intro functions hle
    rw [List.getElem?_eq_none hle]
    exact nofun
  induction h with
  | @trans d d₁ d₂ w w₁ h h₁ ih ih₁ =>
    have hr₁ := h.ready hr
    have hd₁ := h.anchored hr hd
    by_cases hlt : position < d₁.state.functions.length
    · have hg₁ : d₁.state.functions[position]? = some g := by
        have hkept := List.prefix_iff_getElem?.mp h₁.extends.functions position hlt
        rw [List.getElem?_eq_getElem hlt, ← hg, hkept]
      obtain ⟨⟨hsince, hbefore⟩, x, hc, hres⟩ := ih hr hd ha hp hg₁
      refine ⟨⟨hsince, fun hs => hbefore (hs.mono h₁.extends.next)⟩, x, h₁.creates hr₁ hd₁ hc,
        fun a hmem hpar => ?_⟩
      rcases h₁.access_chain hr₁ a hmem with hmem | ⟨-, hown | hlater⟩
      · exact hres a hmem hpar
      · rw [h.extends.parameters] at hown
        exact absurd (hpar.symm.trans hown ▸ hsince) hr.not_enteredSince
      · exact absurd (hpar ▸ hlater) hbefore
    · obtain ⟨⟨hsince, hbefore⟩, hx⟩ := ih₁ hr₁ hd₁ (h.aged hr ha) (Nat.le_of_not_lt hlt) hg
      exact ⟨⟨hsince.mono h.extends.next, hbefore⟩, hx⟩
  | @object s s₁ code code₁ w y kind inner ih =>
    obtain ⟨hage, x, hc, hres⟩ := ih (hr.push kind)
      (hd.of_blocks rfl (ScopeTable.chain_push_object kind)) ha hp hg
    refine ⟨hage, x, hc.imp_left fun ⟨loc, id, hid, hs⟩ => ⟨loc, id, hid, ?_⟩, hres⟩
    exact hs.of_code (List.prefix_refl _) rfl (inner.chain_pop kind hr)
  | @block s s₁ w parent kind rest loc opened chain own inner ih =>
    have hr' := hr.enterBlock loc parent
    have henter := (s.enters_enterBlock loc parent).next_le
    obtain ⟨⟨hsince, hbefore⟩, x, hc, hres⟩ := ih hr' (anchored_enterBlock loc parent hr)
      (ha.mono rfl henter) hp hg
    refine ⟨⟨hsince.mono henter, hbefore⟩, x,
      hc.imp_left fun ⟨loc', id, hid, hs⟩ => ⟨loc', id, ?_, ?_⟩, hres⟩
    · rwa [Compilation.closures_leaveBlock]
    · exact hs.leaveBlock (List.cons_ne_nil _ _) loc parent
  | @function s s₁ w _ code definition params body loc named settled inner ih =>
    have hr' := hr.enter definition params loc
    have henter := s.enters_spend definition params loc []
    have hchain := henter.chain hr.sound rfl
    have ha' : Draft.Aged ⟨s.spend.enter definition params loc [], []⟩ := ha.mono rfl henter.next_le
    have hd' := anchored_enter definition params loc hr.sound
    by_cases hlt : position < s₁.functions.length
    · have hg₁ : s₁.functions[position]? = some g := by
        rwa [Compilation.leave, List.getElem?_append_left hlt] at hg
      obtain ⟨⟨hsince, hbefore⟩, x, hc, hres⟩ := ih hr' hd' ha' hp hg₁
      exact ⟨⟨hsince.mono henter.next_le, hbefore⟩, x, .inr (hc.finish s₁.file loc), hres⟩
    -- The function that ends here.
    · obtain ⟨rfl, rfl⟩ := eq_of_getElem?_append (Nat.le_of_not_lt hlt) hg
      have hparameters : s₁.frame.parameters =
        (s.spend.enter definition params loc []).frame.parameters := inner.extends.parameters
      have hsince : EnteredSince s.scopes.next s₁.frame.parameters :=
        ⟨_, _, hparameters, Int.ofNat_le.mpr (Nat.le_succ _)⟩
      have hdefinition : s₁.frame.definition = definition := inner.extends.definition
      obtain ⟨x, kind, rest, hx, -, -⟩ := hr.environment
      refine ⟨⟨hsince, (inner.ready hr').not_enteredSince⟩, x,
        .inl ⟨loc, s.scopes.next, ?_, Draft.stands_singleton.mpr (.inl ⟨?_, kind, rest, ?_⟩)⟩,
        fun a hmem hpar => ?_⟩
      · show _ ∈ s.frame.closures ++ [_]
        rw [← hdefinition]
        exact List.mem_append_right _ List.mem_cons_self
      · exact List.mem_append_right _ List.mem_cons_self
      · exact ((Run.function code definition params body loc named settled inner).extends.chain
          hr).trans hx
      · rcases inner.access_chain hr' a hmem with hmem | ⟨⟨env, henv⟩, -⟩
        · exact absurd (hpar ▸ hsince) (ha a hmem)
        · rw [hchain, hx] at henv
          exact ⟨env, _, kind, rest, inner.activates s₁.file, henv⟩
  | _ => exact absurd hg (hnew hp)

theorem ProgramRun.created {file : String} {hosts : List String} {node : Node}
    {functions : List Function} {result : Compilation}
    (p : ProgramRun loose file hosts node functions result) {position : Nat} {g : Function}
    (hg : p.final.functions[position]? = some g) :
    ∃ f ∈ functions, ∃ x, f.Creates ⟨g.definition, some position⟩ x ∧
      ∀ a ∈ result.accesses, a.parameters = g.parameters → g.ResolvesFrom a x := by
  have hfunctions : (p.seeded.enterMain file p.loc p.prologue).functions = [] := p.seeds.functions
  have haccesses : (p.seeded.enterMain file p.loc p.prologue).accesses = [] := p.seeds.accesses
  have haged : Draft.Aged ⟨p.seeded.enterMain file p.loc p.prologue, []⟩ := by
    intro a ha
    simp [haccesses] at ha
  obtain ⟨-, x, hc, hres⟩ := p.run.created p.seeds.ready p.seeds.anchored haged
    (by simp [hfunctions]) hg
  obtain ⟨f, hf, hc⟩ := hc.finish file p.loc
  refine ⟨f, ?_, x, hc, fun a ha => hres a (p.accesses ▸ ha)⟩
  rw [p.mem_functions]
  simpa using hf

/-- Direct calls pass the environment of the caller. Names that are accessed in a block are
looked up from the environment that the block belongs to. A direct call passes just this
environment for the implicit parameter of its callee. The callee expects the environment that
its object was created in, since its free names were looked up from there. The two are the
same only if the call and the creation stand in blocks of one environment, and so in the same
function. -/
theorem direct_calls_pass_environment {file : String} {hosts : List String} {node : Node}
    {functions : List Function} {s : Compilation}
    (h : Lower.program hosts node (.start file) = .ok functions s) :
    (∀ a ∈ s.accesses, a.code ≠ [] → ∃ f ∈ functions, ∃ b ∈ f.blocks,
      a.parameters = f.parameters ∧ a.code <:+: b.instructions ∧ a.scopes.Innermost b.scope) ∧
    ∀ f ∈ functions, ∀ b ∈ f.blocks, ∀ loc dest receiver name operands,
      .call loc dest receiver (.user name file) operands ∈ b.instructions →
      ∃ (arguments : List (Option Value)) (position : Nat) (g : Function),
        operands = some (.ofScope b.scope) :: arguments ∧ functions[position]? = some g ∧
        g.definition = .user name file ∧ arguments.length = g.parameters.length - 1 ∧
        ∃ f' ∈ functions, ∃ x, f'.Creates ⟨g.definition, some position⟩ x ∧
          (∀ a ∈ s.accesses, a.parameters = g.parameters → g.ResolvesFrom a x) ∧
          (b.scope = x → f = f') := by
  obtain ⟨p⟩ := Lower.program_eq_ok (fun _ => trivial : Quiet True node) h
  have hprefix : p.final.functions <+: functions := ⟨_, p.output.symm⟩
  refine ⟨fun a ha hne => ?_, fun f hf b hb loc dest receiver name operands hi => ?_⟩
  · obtain ⟨f, hf, hown⟩ := p.exists_owner a ha
    obtain ⟨b, hb, hx, hc⟩ := hown.environment hne
    exact ⟨f, hf, b, hb, hown.parameters, hc, hx⟩
  · obtain ⟨arguments, position, g, ho, hg, hd, hlen⟩ :=
      (p.situated f hf).passes b hb _ hi loc dest receiver name operands rfl
    obtain ⟨f', hf', x, hc, hres⟩ := p.created hg
    refine ⟨arguments, position, g, ho, getElem?_of_prefix hprefix hg, hd, hlen, f', hf', x, hc,
      hres, ?_⟩
    rintro rfl
    obtain ⟨-, -, -, b', hb', hscope, -⟩ := hc
    exact p.eq_of_mem_defined hf hf' ((p.situated f hf).scopes (List.mem_map_of_mem hb))
      (hscope ▸ (p.situated f' hf').scopes (List.mem_map_of_mem hb'))

/-- `var x; function g() { return x; } function h() { return g(); }` -/
def callFromFunction : Node :=
  .program {} "script" [
    .variableDeclaration {} "var" [.variableDeclarator {} (.identifier {} "x") .missing],
    .functionDeclaration {} (.identifier {} "g") [] (.blockStatement {} [
      .returnStatement {} (.identifier {} "x")]),
    .functionDeclaration {} (.identifier {} "h") [] (.blockStatement {} [
      .returnStatement {} (.call {} (.identifier {} "g") [] false)])]

/-- The callee resolves `x` past its record from the environment of its creation, and the call
passes another one. -/
theorem callFromFunction_passes_other : ∃ functions s,
    Lower.program [] callFromFunction (.start "f.js") = .ok functions s ∧
    ∃ f ∈ functions, ∃ b ∈ f.blocks, ∃ loc dest receiver arguments,
      .call loc dest receiver (.user "g" "f.js") (some (.ofScope b.scope) :: arguments) ∈
        b.instructions ∧
      ∃ (position : Nat) (g : Function), functions[position]? = some g ∧
        g.definition = .user "g" "f.js" ∧
        ∃ f' ∈ functions, ∃ x, f'.Creates ⟨g.definition, some position⟩ x ∧
          (∀ a ∈ s.accesses, a.parameters = g.parameters → g.ResolvesFrom a x) ∧ b.scope ≠ x := by
  obtain ⟨functions, s, h, hs⟩ := Lower.exists_program_ok "f.js" [] callFromFunction
    (fun functions _ => do
      let f ← functions[1]?
      let b ← f.blocks[0]?
      let i ← b.instructions[4]?
      return (Stats.callee? i, f.closures.length))
    (b := some (some (.user "g" "f.js"), 0)) (by decide +kernel)
  simp only [Option.bind_eq_bind, Option.bind_eq_some_iff, Option.pure_def, Option.some.injEq,
    Prod.mk.injEq] at hs
  obtain ⟨f, hf, b, hb, i, hi, hcallee, hclosures⟩ := hs
  have hf := List.mem_of_getElem? hf
  have hb := List.mem_of_getElem? hb
  have hi := List.mem_of_getElem? hi
  obtain ⟨loc, dest, receiver, operands, rfl⟩ : ∃ loc dest receiver operands,
      i = .call loc dest receiver (.user "g" "f.js") operands := by
    cases i with
    | call loc dest receiver callee operands =>
      cases hcallee
      exact ⟨loc, dest, receiver, operands, rfl⟩
    | _ => cases hcallee
  obtain ⟨-, hcalls⟩ := direct_calls_pass_environment h
  obtain ⟨arguments, position, g, rfl, hg, hd, -, f', hf', x, hc, hres, hsame⟩ :=
    hcalls f hf b hb loc dest receiver "g" operands hi
  refine ⟨functions, s, h, f, hf, b, hb, loc, dest, receiver, arguments, hi, position, g, hg, hd,
    f', hf', x, hc, hres, fun hx => ?_⟩
  -- The caller creates no function.
  obtain ⟨-, id, hid, -⟩ := hc
  rw [← hsame hx, List.length_eq_zero_iff.mp hclosures] at hid
  cases hid

end ScopeIR
