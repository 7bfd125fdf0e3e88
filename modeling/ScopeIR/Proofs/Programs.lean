import Mathlib.Data.List.Forall2
import ScopeIR.Proofs.Lowering
import ScopeIR.Proofs.Outcomes

/-! Whole programs. The global object is filled first; what follows is the run of the
implicit function. -/
namespace ScopeIR

def hostConstant (id : Id) (name : String) : Constant := ⟨id, .str name, .ofKind .string⟩

/-- What the fields of the global object are set to: host-defined constants, null or the
object itself. -/
def IsSeed (hosted : List Constant) (value : Value) : Prop :=
  value = .null ∨ value = .ofScope 0 ∨ ∃ c ∈ hosted, value = .const c

/-- The code that fills the global object, and how many ids were handed out with it. Those
that the code does not define are those of the host-defined constants. -/
inductive Prologue (loc : Location) : Nat → List Constant → List Instruction → Prop
  | scope : Prologue loc 1 [] [.scope loc 0]
  | host {n : Nat} {hosted : List Constant} {code : List Instruction} (name : String) :
      Prologue loc n hosted code → Prologue loc (n + 1) (hosted ++ [hostConstant n name]) code
  | seed {n : Nat} {hosted : List Constant} {code : List Instruction} (name : String)
      (value : Value) (global : IsSeed hosted value) : Prologue loc n hosted code →
      Prologue loc (n + 1) hosted
        (code ++ [.apply loc n (.setField name) [.ofScope 0, value]])

/-- The state in which only the global object was worked on. -/
structure Seeded (file : String) (loc : Location) (hosted : List Constant) (s : Compilation)
    (code : List Instruction) : Prop where
  file : s.file = file
  functions : s.functions = []
  accesses : s.accesses = []
  stack : s.scopes.stack = [0]
  kinds : ∀ x, s.scopes.kind? x = if x = 0 then some .global else none
  tame : ∀ x v, s.scopes.Knows x v → s.Tame v
  constants : s.scopes.constants = []
  blocks : s.frame.blocks = [⟨0, 0, code, loc⟩]
  prologue : Prologue loc s.scopes.next hosted code

def Compilation.enterMain (s : Compilation) (file : String) (loc : Location)
    (code : List Instruction) : Compilation :=
  s.enter (.user mainName file) [] loc
    [⟨0, 0, code ++ [.branch loc (some (.own 1))], loc⟩]

variable {loose : Prop} {file : String} {loc : Location} {s s' : Compilation}
  {code : List Instruction} {hosts : List String} {hosted : List Constant}

theorem Prologue.next_pos {n : Nat} (h : Prologue loc n hosted code) : 0 < n := by
  induction h with
  | scope => exact Nat.one_pos
  | host name _ ih => exact Nat.succ_pos _
  | seed name value _ _ ih => exact Nat.succ_pos _

theorem Prologue.scope_mem {n : Nat} (h : Prologue loc n hosted code) : .scope loc 0 ∈ code := by
  induction h with
  | scope => exact List.mem_cons_self
  | host _ _ ih => exact ih
  | seed _ _ _ _ ih => exact List.mem_append_left _ ih

theorem Prologue.defined_lt {n : Nat} (h : Prologue loc n hosted code) :
    ∀ i ∈ code, ∀ x : Int, i.defined? = some x → 0 ≤ x ∧ x < n := by
  induction h with
  | scope =>
    intro i hi x hx
    cases List.mem_singleton.mp hi
    cases hx
    exact ⟨Int.le_refl _, Int.one_pos⟩
  | host name _ ih =>
    intro i hi x hx
    have := ih i hi x hx
    omega
  | @seed n hosted code name value _ _ ih =>
    intro i hi x hx
    rcases List.mem_append.mp hi with hi | hi
    · have := ih i hi x hx
      omega
    · cases List.mem_singleton.mp hi
      cases hx
      show (0 : Int) ≤ (n : Int) ∧ (n : Int) < (n + 1 : Nat)
      omega

namespace Seeded

theorem sound (h : Seeded file loc hosted s code) : s.scopes.Sound where
  ids x kind hk := by
    rw [h.kinds] at hk
    split at hk
    · rename_i hx
      rw [hx]
      exact Int.ofNat_lt.mpr h.prologue.next_pos
    · cases hk
  stack x hx := by
    rw [h.stack] at hx
    cases List.mem_singleton.mp hx
    exact ⟨_, (h.kinds 0).trans (if_pos rfl)⟩

theorem chain (h : Seeded file loc hosted s code) : s.scopes.chain = [(0, .global)] := by
  simp [ScopeTable.chain_eq, h.stack, h.kinds, ScopeKind.isEnvironment]

theorem nested_enter (h : Seeded file loc hosted s code) (definition : FunctionDefinition)
    (params : List Node) (loc' : Location) (before : List Block) :
    (s.enter definition params loc' before).scopes.Nested := by
  have hglobal : s.scopes.Nested := by
    constructor <;> simp [h.chain]
  exact hglobal.enters (s.enters_enter definition params loc' before) h.sound rfl

theorem tame_spend (h : Seeded file loc hosted s code) {x : Id} {v : Value}
    (hv : s.scopes.Knows x v) : s.spend.Tame v :=
  (h.tame x v hv).mono h.sound rfl (List.prefix_refl _) (Nat.le_succ _) fun _ _ => rfl

theorem host (h : Seeded file loc hosted s code) (name : String) :
    Seeded file loc (hosted ++ [hostConstant s.scopes.next name]) s.spend code where
  file := h.file
  functions := h.functions
  accesses := h.accesses
  stack := h.stack
  kinds := h.kinds
  tame _ _ := h.tame_spend
  constants := h.constants
  blocks := h.blocks
  prologue := h.prologue.host name

theorem logged (h : Seeded file loc hosted s code) (note : Note) :
    Seeded file loc hosted (s.logged note) code where
  file := h.file
  functions := h.functions
  accesses := h.accesses
  stack := h.stack
  kinds := h.kinds
  tame x v hv := have ht := h.tame x v hv; ⟨ht.proper, ht.scope, ht.bound⟩
  constants := h.constants
  blocks := h.blocks
  prologue := h.prologue

theorem start (file : String) (loc : Location) (log : List Note) :
    Seeded file loc [] { Compilation.start file with
      scopes := (({} : ScopeTable).create .global).2.push 0
      frame := ((Compilation.start file).frame.start 0 loc).extend [.scope loc 0]
      log } [.scope loc 0] where
  file := rfl
  functions := rfl
  accesses := rfl
  stack := rfl
  kinds x := by
    show ((({} : ScopeTable).create .global).2.push 0).kind? x = _
    rw [ScopeTable.kind?_push, ScopeTable.kind?_create, ScopeTable.kind?_empty]
    rfl
  tame x v hv := by
    obtain ⟨kind, hk⟩ := (ScopeTable.knows_create (ScopeTable.knows_push hv)).kind?
    rw [ScopeTable.kind?_empty] at hk
    cases hk
  constants := rfl
  blocks := rfl
  prologue := .scope

theorem seed (h : Seeded file loc hosted s code) (v : Scope → Variable) (known : Value)
    (name : String) {value : Value} (hk : s.spend.Tame known) (hv : IsSeed hosted value) :
    Seeded file loc hosted { s.spend with
      scopes := s.spend.scopes.modifyScope 0 fun x =>
        (x.withVariable (v x)).assign (v x) (some known)
      frame := s.frame.extend [.apply loc s.scopes.next (.setField name) [.ofScope 0, value]] }
      (code ++ [.apply loc s.scopes.next (.setField name) [.ofScope 0, value]]) where
  file := h.file
  functions := h.functions
  accesses := h.accesses
  stack := h.stack
  kinds x := (ScopeTable.kind?_assign s.spend.scopes 0 x v known).trans (h.kinds x)
  tame x w hw := by
    have ht : s.spend.Tame w := by
      rcases ScopeTable.knows_assign hw with ⟨-, rfl⟩ | hw
      · exact hk
      · exact h.tame_spend hw
    have hids : ∀ (y : Int) kind, s.scopes.kind? y = some kind → y < (s.scopes.next + 1 : Nat) :=
      fun y kind hy => Int.lt_trans (h.sound.ids y kind hy) (Int.ofNat_lt.mpr (Nat.lt_succ_self _))
    exact ht.mono ⟨hids, h.sound.stack⟩ rfl (List.prefix_refl _) (Nat.le_refl _) fun y _ =>
      ScopeTable.kind?_assign s.spend.scopes 0 y v known
  constants := h.constants
  blocks := by simp [Frame.extend, h.blocks, Block.add]
  prologue := h.prologue.seed name value hv

theorem ready (h : Seeded file loc hosted s code) : Ready ⟨s.enterMain file loc code, []⟩ := by
  refine ready_enter _ _ loc _ h.sound (by simp [h.constants])
    (by simp [ScopeTable.Interned, h.constants]) h.tame ?_ ?_
  · intro block hblock i hi x hx
    cases List.mem_singleton.mp hblock
    rcases List.mem_append.mp hi with hi | hi
    · exact (h.prologue.defined_lt i hi x hx).2
    · cases List.mem_singleton.mp hi
      cases hx
  · intro x _ hl
    unfold ScopeTable.IsLocal at hl
    rw [h.kinds] at hl
    by_cases hx : x = 0 <;> simp [hx] at hl

theorem enterMain_eq (h : Seeded file loc hosted s code) :
    s.enter (.user mainName s.file) [] loc (Lower.leadingIn loc s.frame.blocks) =
      s.enterMain file loc code := by
  rw [h.blocks, h.file]
  rfl

end Seeded

namespace Lower

theorem hostGlobals_seeded {names : List String} {globals : List Global}
    (hs : Seeded file loc hosted s code) (h : hostGlobals names s = .ok globals s') :
    ∃ added, Seeded file loc (hosted ++ added) s' code ∧
      List.Forall₂ (fun name c => c = hostConstant c.id name ∧ ⟨{ name }, .const c⟩ ∈ globals)
        names added ∧
      ∀ g ∈ globals, ∃ c ∈ added, g.value = .const c := by
  induction names generalizing s hosted globals with
  | nil =>
    simp only [hostGlobals, pure_eq_ok] at h
    obtain ⟨rfl, rfl⟩ := h
    exact ⟨[], by simpa using hs, .nil, by simp⟩
  | cons name rest ih =>
    simp only [hostGlobals, bind_eq_ok, fresh_eq_ok, pure_eq_ok] at h
    obtain ⟨_, _, ⟨rfl, rfl⟩, globals, _, hrest, rfl, rfl⟩ := h
    obtain ⟨added, hs', hnames, hvalues⟩ := ih (hs.host name) hrest
    refine ⟨hostConstant s.scopes.next name :: added, by simpa using hs',
      .cons ⟨rfl, List.mem_cons_self⟩ (hnames.imp fun _ _ h => ⟨h.1, List.mem_cons_of_mem _ h.2⟩),
      List.forall_mem_cons.mpr ⟨⟨_, List.mem_cons_self, rfl⟩, fun g hg => ?_⟩⟩
    obtain ⟨c, hc, hv⟩ := hvalues g hg
    exact ⟨c, List.mem_cons_of_mem _ hc, hv⟩

theorem seedGlobals_seeded {globals : List Global} {u : Unit} (hs : Seeded file loc hosted s code)
    (hg : ∀ g ∈ globals, IsSeed hosted g.value) (h : seedGlobals 0 loc globals s = .ok u s') :
    ∃ code', Seeded file loc hosted s' code' ∧ code ⊆ code' ∧ ∀ g ∈ globals, ∃ id : Id,
      .apply loc id (.setField g.target.name) [.ofScope 0, g.value] ∈ code' := by
  induction globals generalizing s code with
  | nil =>
    simp only [seedGlobals, pure_eq_ok, true_and] at h
    exact ⟨code, h ▸ hs, List.Subset.refl _, by simp⟩
  | cons g rest ih =>
    simp only [seedGlobals, modifyScope, bind_eq_ok, fresh_eq_ok, modify_eq_ok, append_eq_ok] at h
    obtain ⟨_, _, ⟨rfl, rfl⟩, _, _, rfl, _, _, ⟨-, rfl⟩, h⟩ := h
    have hpos := hs.prologue.next_pos
    have hk : s.spend.Tame (.ref s.scopes.next) := by
      have hbound : (s.scopes.next : Int) < s.spend.scopes.next :=
        Int.ofNat_lt.mpr (Nat.lt_succ_self _)
      refine ⟨trivial, ⟨hbound, (hs.kinds _).trans (if_neg ?_)⟩, hbound⟩
      show (s.scopes.next : Int) ≠ 0
      omega
    obtain ⟨code', hs', hsub, hall⟩ := ih (hs.seed (fun _ => g.target) (.ref s.scopes.next)
      g.target.name hk (hg g List.mem_cons_self)) (fun g hm => hg g (List.mem_cons_of_mem _ hm)) h
    refine ⟨code', hs', fun i hi => hsub (List.mem_append_left _ hi), ?_⟩
    refine List.forall_mem_cons.mpr ⟨⟨s.scopes.next, hsub ?_⟩, hall⟩
    exact List.mem_append_right _ List.mem_cons_self

theorem seeded_globals {globals : List Global} {s₁ : Compilation} {u : Unit}
    (hs : Seeded file loc [] s code) (hhosts : hostGlobals hosts s = .ok globals s₁)
    (hseeds : seedGlobals 0 loc (standardGlobals ++ globals) s₁ = .ok u s') :
    ∃ hosted prologue, Seeded file loc hosted s' prologue ∧
      List.Forall₂ (fun name c => c = hostConstant c.id name ∧ ∃ id : Id,
        .apply loc id (.setField name) [.ofScope 0, .const c] ∈ prologue) hosts hosted := by
  obtain ⟨hosted, hs, hnames, hvalues⟩ := hostGlobals_seeded hs hhosts
  rw [List.nil_append] at hs
  have hconst : ∀ g ∈ standardGlobals ++ globals, IsSeed hosted g.value := by
    intro g hg
    rcases List.mem_append.mp hg with hg | hg
    · simp only [standardGlobals, List.mem_cons, List.not_mem_nil, or_false] at hg
      rcases hg with rfl | rfl | rfl <;> exact .inl rfl
    · exact .inr (.inr (hvalues g hg))
  obtain ⟨prologue, hs, -, hstored⟩ := seedGlobals_seeded hs hconst hseeds
  exact ⟨hosted, prologue, hs,
    hnames.imp fun _ _ hc => ⟨hc.1, hstored _ (List.mem_append_right _ hc.2)⟩⟩

structure SameOutput (s s' : Compilation) : Prop where
  functions : s'.functions = s.functions
  accesses : s'.accesses = s.accesses
  next : s'.scopes.next = s.scopes.next
  constants : s'.scopes.constants = s.scopes.constants
  kinds : ∀ x, s'.scopes.kind? x = s.scopes.kind? x

theorem keeps_popScope {u : Unit} (h : popScope s = .ok u s') : SameOutput s s' := by
  simp only [popScope, bind_eq_ok, get_eq_ok] at h
  obtain ⟨_, _, ⟨rfl, rfl⟩, h⟩ := h
  cases hc : s.scopes.current? with
  | none =>
    simp only [hc, pure_eq_ok, true_and] at h
    exact h ▸ ⟨rfl, rfl, rfl, rfl, fun _ => rfl⟩
  | some scope =>
    simp only [hc, bind_eq_ok, modify_eq_ok, get_eq_ok, report_eq_ok] at h
    obtain ⟨_, _, rfl, _, _, ⟨rfl, rfl⟩, rfl⟩ := h
    exact ⟨rfl, rfl, rfl, rfl, fun _ => rfl⟩

theorem keeps_reportFunctions {functions : List Function} {u : Unit}
    (h : reportFunctions functions s = .ok u s') : SameOutput s s' := by
  induction functions generalizing s with
  | nil =>
    simp only [reportFunctions, pure_eq_ok, true_and] at h
    exact h ▸ ⟨rfl, rfl, rfl, rfl, fun _ => rfl⟩
  | cons f rest ih =>
    simp only [reportFunctions, bind_eq_ok, report_eq_ok] at h
    obtain ⟨_, s₁, rfl, h⟩ := h
    exact ⟨(ih h).functions, (ih h).accesses, (ih h).next, (ih h).constants, (ih h).kinds⟩

end Lower

/-- The lowering of a program: the implicit function is entered where the global object is
filled, and joins the output when its run ends. -/
structure ProgramRun (loose : Prop) (file : String) (hosts : List String) (node : Node)
    (functions : List Function) (result : Compilation) where
  loc : Location
  body : List Node
  hosted : List Constant
  prologue : List Instruction
  seeded : Compilation
  final : Compilation
  source : node.programFunctions = (Node.allWork body).functions ++ [⟨[], body⟩]
  taken : node.programNames = (Node.allWork body).names
  names : List.Forall₂ (fun name c => c = hostConstant c.id name ∧ ∃ id : Id,
    .apply loc id (.setField name) [.ofScope 0, .const c] ∈ prologue) hosts hosted
  seeds : Seeded file loc hosted seeded prologue
  run : Run loose ⟨seeded.enterMain file loc prologue, []⟩ (Node.allWork body) ⟨final, []⟩
  output : functions = final.functions ++ [final.frame.finish file loc]
  accesses : result.accesses = final.accesses
  next : result.scopes.next = final.scopes.next
  constants : result.scopes.constants = final.scopes.constants
  kinds : ∀ x, result.scopes.kind? x = final.scopes.kind? x

theorem ProgramRun.mem_functions {node : Node} {functions : List Function} {result : Compilation}
    (p : ProgramRun loose file hosts node functions result) {f : Function} :
    f ∈ functions ↔ f ∈ p.final.functions ∨ f = p.final.frame.finish file p.loc := by
  have hout : f ∈ functions ↔ f ∈ p.final.functions ++ [p.final.frame.finish file p.loc] := by
    rw [← p.output]
  simpa using hout

namespace Lower

theorem program_eq_ok {node : Node} {functions : List Function} (hq : Quiet loose node)
    (h : program hosts node (.start file) = .ok functions s) :
    Nonempty (ProgramRun loose file hosts node functions s) := by
  cases node with
  | program loc sourceType body =>
    simp only [program, assign, modifyScope, bind_eq_ok, createScope_eq_ok, startBlock_eq_ok,
      pushScope_eq_ok, append_eq_ok, fresh_eq_ok, modify_eq_ok, get_eq_ok, pure_eq_ok] at h
    obtain ⟨_, _, ⟨rfl, rfl⟩, _, _, rfl, _, _, rfl, _, _, ⟨-, rfl⟩, _, _, ⟨rfl, rfl⟩, _, _, ⟨-, rfl⟩,
      _, _, hassign, globals, s₁, hhosts, _, s₂, hseeds, _, _, ⟨rfl, rfl⟩, link, s₃, hfun, _, s₄,
      hpop, _, _, ⟨rfl, rfl⟩, _, _, hreport, rfl, rfl⟩ := h
    have hs := hassign ▸ (Seeded.start file loc _).seed (·.variableOf "globalThis") (.ofScope 0)
      "globalThis" ⟨trivial, .inr rfl, Int.ofNat_lt.mpr Nat.two_pos⟩ (.inr (.inl rfl))
    obtain ⟨hosted, prologue, hs, hnames⟩ := seeded_globals hs hhosts hseeds
    have hs := hs.logged (.event (.processFunction mainName 0 body.length))
    have hready := hs.ready
    have hbody : Executes loose (Node.allWork body) (statements body) :=
      statements_executes body (hq.item "body" (by simp [Node.children]))
    rw [← hs.enterMain_eq] at hready
    obtain ⟨s₁, event, hrun, -, -, rfl⟩ := function_eq_ok hfun hready (by simp) hbody
    have hrun := hs.enterMain_eq ▸ hrun
    have hkept := keeps_popScope hpop
    have hkept₁ := keeps_reportFunctions hreport
    have hfinal : s₁.file = file := hrun.extends.file.trans hs.file
    exact ⟨{
      loc, body, hosted, prologue, seeded := _, final := s₁, source := rfl, taken := rfl
      names := hnames, seeds := hs, run := hrun
      output := by rw [hkept.functions, ← hfinal]; rfl
      accesses := hkept₁.accesses.trans hkept.accesses
      next := hkept₁.next.trans hkept.next
      constants := hkept₁.constants.trans hkept.constants
      kinds := fun x => (hkept₁.kinds x).trans (hkept.kinds x) }⟩
  | _ => simp [program] at h

end Lower

theorem Lower.exists_program_ok {β : Type} (file : String) (hosts : List String) (node : Node)
    (f : List Function → Compilation → β) {b : β}
    (h : (match program hosts node (.start file) with
      | .ok functions s => some (f functions s)
      | .error _ _ => none) = some b) :
    ∃ functions s, program hosts node (.start file) = .ok functions s ∧ f functions s = b := by
  cases hp : program hosts node (.start file) with
  | error e s => simp [hp] at h
  | ok functions s =>
    rw [hp] at h
    exact ⟨functions, s, rfl, Option.some.inj h⟩

theorem exists_programRun {node : Node} {functions : List Function}
    (h : (lower file hosts node).1 = .ok functions) :
    ∃ result, Nonempty (ProgramRun True file hosts node functions result) := by
  unfold lower at h
  split at h
  · rename_i s hp
    cases h
    exact ⟨s, Lower.program_eq_ok (fun _ => trivial) hp⟩
  · cases h

end ScopeIR
