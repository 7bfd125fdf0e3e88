import ScopeIR.Proofs.Programs

/-! Bookkeeping of ids. Every id that a run hands out goes to one parameter, one instruction
or one constant, so that no two of them share one. -/
namespace ScopeIR

variable {loose : Prop} {s s' : Compilation} {code : List Instruction} {id : Int}

def Function.defined (f : Function) : List Id :=
  f.parameters.map (·.id) ++ f.code.filterMap Instruction.defined?

/-- How often an id is used: by a finished function, by the current one, by a constant. -/
def Draft.uses (d : Draft) (id : Id) : Nat :=
  (d.state.functions.flatMap Function.defined).count id + d.defined.count id +
    (d.state.scopes.constants.map (·.2.id)).count id

/-- Whether the id is one of the first so many. -/
def handedOut (n : Nat) (id : Int) : Nat := if 0 ≤ id ∧ id < n then 1 else 0

theorem handedOut_succ (n : Nat) (id : Int) :
    handedOut (n + 1) id = handedOut n id + if (n : Int) = id then 1 else 0 := by
  unfold handedOut
  split <;> split <;> split <;> omega

theorem handedOut_le_one (n : Nat) (id : Int) : handedOut n id ≤ 1 := by
  unfold handedOut
  split <;> omega

theorem count_next (n : Nat) (id : Int) :
    [(n : Id)].count id = if (n : Int) = id then 1 else 0 := by
  rw [List.count_singleton]
  simp

theorem Compilation.defined_finish (s : Compilation) (file : String) (loc : Location) :
    (s.frame.finish file loc).defined = Draft.defined ⟨s, []⟩ := by
  rw [Function.defined, Frame.code_finish, Draft.defined, Draft.body, List.append_nil,
    List.filterMap_append]
  split <;> simp [Frame.finish, Instruction.defined?]

theorem count_parametersFrom (n : Nat) (params : List Node) (id : Int) :
    ((parametersFrom n params).map (·.id)).count id + handedOut n id =
      handedOut (n + params.length) id := by
  induction params generalizing n with
  | nil => simp [parametersFrom]
  | cons node rest ih =>
    have ih := ih (n + 1)
    rw [handedOut_succ] at ih
    simp only [parametersFrom, List.map_cons, List.count_cons, List.length_cons] at ih ⊢
    rw [show n + (rest.length + 1) = n + 1 + rest.length by omega, ← ih]
    simp only [beq_iff_eq]
    omega

namespace Compilation

/-- What a function is entered with takes the next ids, but for the blocks before it. -/
theorem count_entered (s : Compilation) (definition : FunctionDefinition) (params : List Node)
    (loc : Location) (before : List Block) (id : Int) :
    (Draft.defined ⟨s.enter definition params loc before, []⟩).count id +
        handedOut s.scopes.next id =
      ((before.reverse.flatMap (·.instructions)).filterMap Instruction.defined?).count id +
        handedOut (s.enter definition params loc before).scopes.next id := by
  have hp := count_parametersFrom (s.scopes.next + 1) params id
  have hn : s.enteredScope params = s.scopes.next + 1 + params.length := rfl
  rw [handedOut_succ, ← hn] at hp
  rw [s.next_enter, handedOut_succ, handedOut_succ, s.defined_enter]
  simp only [List.count_append, List.count_cons, List.count_nil, beq_iff_eq] at hp ⊢
  omega

end Compilation

theorem Draft.uses_of_defined (d d' : Draft) (functions : d'.state.functions = d.state.functions)
    (constants : d'.state.scopes.constants = d.state.scopes.constants) (id : Id) :
    d'.uses id + d.defined.count id = d.uses id + d'.defined.count id := by
  unfold uses
  rw [functions, constants]
  omega

theorem Draft.uses_apply {loc : Location} {callee : FunctionDefinition} {operands : List Value}
    (frame : s'.frame = s.frame) (functions : s'.functions = s.functions)
    (constants : s'.scopes.constants = s.scopes.constants)
    (next : s'.scopes.next = s.scopes.next + 1) (id : Int) :
    uses ⟨s', code ++ [.apply loc s.scopes.next callee operands]⟩ id +
        handedOut s.scopes.next id = uses ⟨s, code⟩ id + handedOut s'.scopes.next id := by
  have hu := uses_of_defined ⟨s, code⟩ ⟨s', code ++ [.apply loc s.scopes.next callee operands]⟩
    functions constants id
  rw [defined_apply (s := s) (by rw [frame]) (by rw [frame]), List.count_append, count_next] at hu
  rw [next, handedOut_succ]
  omega

theorem Draft.uses_leave (s₁ : Compilation) (code : List Instruction) (loc : Location) (x : Id)
    (link : FunctionLink) (id : Id) :
    uses ⟨s₁.leave loc (s.frame.addClosure x link),
        code ++ [.apply loc s.scopes.next .newObject []]⟩ id =
      uses ⟨s₁, []⟩ id + (defined ⟨s, code⟩).count id + [(s.scopes.next : Id)].count id := by
  rw [uses, uses, s.defined_leave]
  simp only [Compilation.leave, ScopeTable.pop, List.flatMap_append, List.flatMap_cons,
    List.flatMap_nil, List.append_nil, List.count_append, s₁.defined_finish]
  omega

/-- The ids that a run hands out are those that it starts to use, each of them once. -/
theorem Run.uses {d d' : Draft} {w : Work} (h : Run loose d w d')
    (hb : d.state.frame.blocks ≠ []) (id : Int) :
    d'.uses id + handedOut d.state.scopes.next id =
      d.uses id + handedOut d'.state.scopes.next id := by
  induction h with
  | refl d => rfl
  | trans h _ ih ih₁ =>
    have := ih hb
    have := ih₁ (h.extends.blocks hb)
    omega
  | report s code event => rfl
  | call s code loc callee operands _ _ _ => apply Draft.uses_apply <;> rfl
  | constant s code key literal type _ =>
    show (s.functions.flatMap Function.defined).count id + (Draft.defined ⟨s, code⟩).count id +
        ((s.scopes.next : Id) :: s.scopes.constants.map (·.2.id)).count id +
          handedOut s.scopes.next id =
      Draft.uses ⟨s, code⟩ id + handedOut (s.scopes.next + 1) id
    rw [handedOut_succ, Draft.uses]
    simp only [List.count_cons, beq_iff_eq]
    omega
  | create s code loc kind literals _ => apply Draft.uses_apply <;> rfl
  | declare s code x name => rfl
  | assign s code x name value _ _ _ => rfl
  | read s code a _ _ _ _ _ => rfl
  | write s code a owner value _ _ _ _ _ _ _ => rfl
  | object _ _ ih => exact ih hb
  | @block s s₁ w parent kind rest loc opened chain own inner ih =>
    have ih := ih (s.blocks_enterBlock_ne_nil loc parent)
    dsimp only at ih
    have hu := Draft.uses_of_defined ⟨s, []⟩ ⟨s.enterBlock loc parent, []⟩ rfl rfl id
    rw [s.defined_enterBlock loc parent hb] at hu
    have hn : handedOut (s.enterBlock loc parent).scopes.next id = _ :=
      handedOut_succ (s.scopes.next + 1) id
    rw [handedOut_succ] at hn
    simp only [List.count_append, List.count_cons, List.count_nil, beq_iff_eq] at hu
    have hleave : Draft.uses ⟨s₁.leaveBlock loc parent, []⟩ id = Draft.uses ⟨s₁, []⟩ id := by
      rw [Draft.uses, Compilation.defined_leaveBlock]
      rfl
    show _ + handedOut s.scopes.next id = Draft.uses ⟨s, []⟩ id + handedOut s₁.scopes.next id
    omega
  | @function s s₁ w _ code definition params body loc _ _ inner ih =>
    have ih := ih (List.cons_ne_nil _ _)
    have henter := s.spend.count_entered definition params loc [] id
    have hspend : handedOut s.spend.scopes.next id = _ := handedOut_succ s.scopes.next id
    have hleave := Draft.uses_leave (s := s) s₁ code loc s.scopes.next
      ⟨definition, some s₁.functions.length⟩ id
    rw [count_next] at hleave
    show _ + handedOut s.scopes.next id = Draft.uses ⟨s, code⟩ id + handedOut s₁.scopes.next id
    rw [hleave]
    have hu := Draft.uses_of_defined ⟨s, code⟩ ⟨s.spend.enter definition params loc [], []⟩
      rfl rfl id
    dsimp only at ih
    simp only [List.reverse_nil, List.flatMap_nil, List.filterMap_nil, List.count_nil] at henter
    omega
  | start s code scope loc _ _ _ =>
    rw [Draft.uses, Draft.defined_start]
    rfl
  | place s code opened =>
    rw [Draft.uses, Draft.defined_place hb]
    rfl
  | ret s code loc value opened _ _ =>
    rw [Draft.uses, Draft.defined_ret hb]
    rfl

theorem Prologue.count_eq {loc : Location} {n : Nat} {hosted : List Constant}
    (h : Prologue loc n hosted code) (id : Int) :
    (code.filterMap Instruction.defined?).count id + (hosted.map (·.id)).count id =
      handedOut n id := by
  induction h with
  | scope =>
    show [((0 : Nat) : Id)].count id + 0 = handedOut (0 + 1) id
    rw [count_next, handedOut_succ]
    simp [handedOut]
  | @host n hosted code name _ ih =>
    have hlast : [hostConstant n name].map (·.id) = [(n : Id)] := rfl
    rw [List.map_append, hlast, List.count_append, count_next, handedOut_succ]
    omega
  | @seed n hosted code name value _ _ ih =>
    have hlast : List.filterMap Instruction.defined?
        [.apply loc n (.setField name) [.ofScope 0, value]] = [(n : Id)] := rfl
    rw [List.filterMap_append, hlast, List.count_append, count_next, handedOut_succ]
    omega

theorem Seeded.uses_eq {file : String} {loc : Location} {hosted : List Constant}
    (h : Seeded file loc hosted s code) (id : Int) :
    Draft.uses ⟨s.enterMain file loc code, []⟩ id + (hosted.map (·.id)).count id =
      handedOut (s.enterMain file loc code).scopes.next id := by
  have henter := s.count_entered (.user mainName file) [] loc
    [⟨0, 0, code ++ [.branch loc (some (.own 1))], loc⟩] id
  have hprologue := h.prologue.count_eq id
  have hbranch : List.filterMap Instruction.defined? [.branch loc (some (.own 1))] = [] := rfl
  have hfunctions : (s.enterMain file loc code).functions = [] := h.functions
  have hconstants : (s.enterMain file loc code).scopes.constants = [] := h.constants
  simp only [List.reverse_singleton, List.flatMap_singleton, List.filterMap_append, hbranch,
    List.append_nil] at henter
  rw [Draft.uses, hfunctions, hconstants]
  simp only [List.flatMap_nil, List.map_nil, List.count_nil, Compilation.enterMain]
  omega

namespace ProgramRun

variable {file : String} {hosts : List String} {node : Node} {functions : List Function}
  {result : Compilation}

/-- All ids that are handed out are used, each of them once. -/
theorem count_defined (p : ProgramRun loose file hosts node functions result) (id : Int) :
    (functions.flatMap Function.defined).count id +
        (result.scopes.constants.map (·.2.id)).count id + (p.hosted.map (·.id)).count id =
      handedOut result.scopes.next id := by
  have hrun := p.run.uses (List.cons_ne_nil _ _) id
  have hstart := p.seeds.uses_eq id
  have hend : Draft.uses ⟨p.final, []⟩ id = (functions.flatMap Function.defined).count id +
      (p.final.scopes.constants.map (·.2.id)).count id := by
    have hout := congrArg (·.flatMap Function.defined) p.output
    simp only [List.flatMap_append, List.flatMap_cons, List.flatMap_nil, List.append_nil,
      p.final.defined_finish] at hout
    rw [Draft.uses, hout, List.count_append]
  rw [p.constants, p.next]
  dsimp only at hrun
  omega

theorem count_defined_le (p : ProgramRun loose file hosts node functions result) (id : Int) :
    (functions.flatMap Function.defined).count id ≤ handedOut result.scopes.next id := by
  have := p.count_defined id
  omega

theorem nodup_defined (p : ProgramRun loose file hosts node functions result) :
    (functions.flatMap Function.defined).Nodup := by
  rw [List.nodup_iff_count]
  intro id
  exact Nat.le_trans (p.count_defined_le id) (handedOut_le_one _ id)

theorem defined_nonneg (p : ProgramRun loose file hosts node functions result) {id : Int}
    (h : id ∈ functions.flatMap Function.defined) : 0 ≤ id := by
  have hle := p.count_defined_le id
  have hpos := List.one_le_count_iff.mpr h
  unfold handedOut at hle
  split at hle <;> omega

theorem prologue_subset (p : ProgramRun loose file hosts node functions result) :
    p.prologue ⊆ (p.final.frame.finish file p.loc).code := by
  have hpiece : Draft.Contains ⟨p.seeded.enterMain file p.loc p.prologue, []⟩ p.prologue :=
    .inr ⟨_, List.mem_cons_of_mem _ List.mem_cons_self, (List.prefix_append _ _).isInfix⟩
  obtain ⟨block, hblock, hc⟩ := Draft.Contains.finish
    (p.run.extends.contains (List.cons_ne_nil _ _) _ hpiece)
    (p.run.extends.blocks (List.cons_ne_nil _ _)) file p.loc
  exact fun i hi => List.mem_flatMap.mpr ⟨block, hblock, hc.subset hi⟩

end ProgramRun

theorem count_range (n : Nat) (id : Int) :
    ((List.range n).map Int.ofNat).count id = handedOut n id := by
  induction n with
  | zero => simp [handedOut]
  | succ n ih =>
    rw [List.range_succ, List.map_append, List.count_append, ih, handedOut_succ, ← count_next]
    rfl

theorem count_defined? (code : List Instruction) (id : Id) :
    (code.filterMap Instruction.defined?).count id =
      (code.filterMap Instruction.dest?).count id +
        (code.filterMap Instruction.declares?).count id := by
  induction code with
  | nil => rfl
  | cons x rest ih =>
    cases x with
    | call loc dest receiver callee operands =>
      show (dest :: rest.filterMap _).count id = (dest :: rest.filterMap _).count id + _
      rw [List.count_cons, List.count_cons, ih, Nat.add_right_comm]
      rfl
    | scope loc y =>
      show (y :: rest.filterMap _).count id = _ + (y :: rest.filterMap _).count id
      rw [List.count_cons, List.count_cons, ih, Nat.add_assoc]
      rfl
    | ret => exact ih
    | branch => exact ih

/-- The ids with a role: of parameters, of calls, of declared scopes, of constants. -/
def idRoles (functions : List Function) (constants : List Constant) : List Id :=
  functions.flatMap (fun f => f.parameters.map (·.id)) ++
    functions.flatMap (fun f => f.code.filterMap Instruction.dest?) ++
    functions.flatMap (fun f => f.code.filterMap Instruction.declares?) ++
    constants.map (·.id)

theorem count_idRoles (functions : List Function) (constants : List Constant) (id : Id) :
    (idRoles functions constants).count id =
      (functions.flatMap Function.defined).count id + (constants.map (·.id)).count id := by
  have hfunctions : (functions.flatMap Function.defined).count id =
      (functions.flatMap fun f => f.parameters.map (·.id)).count id +
        (functions.flatMap fun f => f.code.filterMap Instruction.dest?).count id +
        (functions.flatMap fun f => f.code.filterMap Instruction.declares?).count id := by
    induction functions with
    | nil => rfl
    | cons f rest ih =>
      simp only [List.flatMap_cons, List.count_append, Function.defined, count_defined?, ih]
      omega
  simp only [idRoles, List.count_append]
  omega

/-- Every id that is handed out has one role, once. The constants are the interned ones and
one for each name that the host defines, which the implicit function stores under that name. -/
theorem ids_accounted {file : String} {hosts : List String} {node : Node}
    {functions : List Function} {s : Compilation}
    (h : Lower.program hosts node (.start file) = .ok functions s) :
    ∃ main hosted, functions.getLast? = some main ∧
      List.Forall₂ (fun name c => c.literal = .str name ∧ c.type = .ofKind .string ∧ ∃ loc id,
        .apply loc id (.setField name) [.ofScope 0, .const c] ∈ main.code) hosts hosted ∧
      (idRoles functions (s.scopes.constants.map (·.2) ++ hosted)).Perm
        ((List.range s.scopes.next).map Int.ofNat) := by
  have hquiet : Quiet True node := fun _ => trivial
  obtain ⟨p⟩ := Lower.program_eq_ok hquiet h
  refine ⟨p.final.frame.finish file p.loc, p.hosted, ?_, p.names.imp fun name c hc => ?_,
    List.perm_iff_count.mpr fun id => ?_⟩
  · exact (congrArg List.getLast? p.output).trans List.getLast?_concat
  · obtain ⟨hc, id, hid⟩ := hc
    exact ⟨congrArg Constant.literal hc, congrArg Constant.type hc, p.loc, id,
      p.prologue_subset hid⟩
  · rw [count_range, count_idRoles, List.map_append, List.count_append, List.map_map]
    exact (Nat.add_assoc _ _ _).symm.trans (p.count_defined id)

/-- `{ o = { ["k"]: function (a) { return a; } }; o.k += "k"; }` -/
def everyRole : Node :=
  .program {} "script" [.blockStatement {} [
    .expressionStatement {} (.assignment {} "=" (.identifier {} "o") (.object {} [
      .property {} (.literal {} { value := .str "k" })
        (.functionExpression {} .missing [.identifier {} "a"]
          (.blockStatement {} [.returnStatement {} (.identifier {} "a")]))
        "init" true false false])),
    .expressionStatement {} (.assignment {} "+="
      (.member {} (.identifier {} "o") (.identifier {} "k") false false)
      (.literal {} { value := .str "k" }))]]

theorem everyRole_ids_accounted : ∃ functions s main hosted,
    Lower.program ["h"] everyRole (.start "f.js") = .ok functions s ∧
      functions.getLast? = some main ∧ s.scopes.constants.length = 1 ∧
      List.Forall₂ (fun name c => c.literal = .str name ∧ c.type = .ofKind .string ∧ ∃ loc id,
        .apply loc id (.setField name) [.ofScope 0, .const c] ∈ main.code) ["h"] hosted ∧
      (idRoles functions (s.scopes.constants.map (·.2) ++ hosted)).Perm
        ((List.range 31).map Int.ofNat) := by
  obtain ⟨functions, s, h, hs⟩ := Lower.exists_program_ok "f.js" ["h"] everyRole
    (fun _ s => (s.scopes.next, s.scopes.constants.length)) (b := (31, 1)) (by decide +kernel)
  obtain ⟨main, hosted, hmain, hnames, hperm⟩ := ids_accounted h
  simp only [Prod.mk.injEq] at hs
  rw [hs.1] at hperm
  exact ⟨functions, s, main, hosted, h, hmain, hs.2, hnames, hperm⟩

end ScopeIR
