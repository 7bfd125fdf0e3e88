import Mathlib.Logic.Relation
import ScopeIR.Proofs.Availability
import ScopeIR.Proofs.ControlFlow

/-! Data flow in the order of ids. A function defines its ids in increasing order, and a call
takes nothing that is younger than its own result. -/
namespace ScopeIR

variable {loose : Prop} {d d' : Draft} {w : Work} {s : Compilation}
  {code more : List Instruction} {loc : Location}

/-- The operands of a call are all there and older than its result. -/
def Instruction.IsOrdered : Instruction → Prop
  | .call _ dest receiver _ operands =>
    (∀ v ∈ receiver, v.id < dest) ∧ ∀ operand ∈ operands, ∃ v, operand = some v ∧ v.id < dest
  | .ret .. | .branch .. | .scope .. => True

@[simp] theorem Instruction.isOrdered_apply {dest : Id} {callee : FunctionDefinition}
    {operands : List Value} :
    (apply loc dest callee operands).IsOrdered ↔ ∀ v ∈ operands, v.id < dest := by
  simp [apply, IsOrdered]

theorem Instruction.IsOrdered.lt {i : Instruction} (h : i.IsOrdered) {x : Id} (hx : x ∈ i.dest?)
    {v : Value} (hv : v ∈ i.values) : v.id < x := by
  cases i with
  | call loc dest receiver callee operands =>
    cases hx
    simp only [values, List.mem_filterMap, id_eq, exists_eq_right, List.mem_cons] at hv
    rcases hv with hv | hv
    · exact h.1 v hv.symm
    · obtain ⟨_, ⟨⟩, hlt⟩ := h.2 _ hv
      exact hlt
  | ret | branch | scope => cases hx

/-- Code that defines its ids in increasing order, each after all that it depends on. -/
structure Ordered (code : List Instruction) : Prop where
  results : (code.filterMap Instruction.defined?).Pairwise (· < ·)
  operands : ∀ i ∈ code, i.IsOrdered

namespace Ordered

theorem append (h : Ordered code) (hm : Ordered more)
    (below : ∀ x ∈ code.filterMap Instruction.defined?,
      ∀ y ∈ more.filterMap Instruction.defined?, x < y) : Ordered (code ++ more) where
  results := by
    rw [List.filterMap_append]
    exact List.pairwise_append.mpr ⟨h.results, hm.results, below⟩
  operands i hi := (List.mem_append.mp hi).elim (h.operands i) (hm.operands i)

theorem of_defined (h : code.filterMap Instruction.defined? = []) : Ordered code where
  results := h ▸ .nil
  operands i hi := by
    have hi := List.filterMap_eq_nil_iff.mp h i hi
    cases i with
    | call => cases hi
    | ret | branch | scope => trivial

theorem apply {dest : Id} {callee : FunctionDefinition} {operands : List Value}
    (h : ∀ v ∈ operands, v.id < dest) : Ordered [.apply loc dest callee operands] where
  results := List.pairwise_singleton _ _
  operands := List.forall_mem_singleton.mpr (Instruction.isOrdered_apply.mpr h)

theorem dests (h : Ordered code) : (code.filterMap Instruction.dest?).Pairwise (· < ·) := by
  have hdefined : ∀ (i : Instruction) (x : Id), i.dest? = some x → i.defined? = some x := by
    rintro (_ | _ | _ | _) x ⟨⟩
    rfl
  refine List.pairwise_filterMap.mpr ((List.pairwise_filterMap.mp h.results).imp ?_)
  exact fun hlt x hx y hy => hlt x (hdefined _ x hx) y (hdefined _ y hy)

end Ordered

def Draft.IsOrdered (d : Draft) : Prop := Ordered d.body

theorem Draft.IsOrdered.extend (h : d.IsOrdered) (hr : Ready d) (body : d'.body = d.body ++ more)
    (new : Ordered more)
    (above : ∀ y : Int, y ∈ more.filterMap Instruction.defined? → d.state.scopes.next ≤ y) :
    d'.IsOrdered := by
  unfold IsOrdered
  rw [body]
  refine Ordered.append h new fun x hx y hy => ?_
  have hlt := hr.defined x (List.mem_append_right _ hx)
  exact Int.lt_of_lt_of_le hlt (above y hy)

theorem Draft.IsOrdered.apply (h : d.IsOrdered) (hr : Ready d) {callee : FunctionDefinition}
    {operands : List Value}
    (body : d'.body = d.body ++ [.apply loc d.state.scopes.next callee operands])
    (bound : ∀ v ∈ operands, v.id < d.state.scopes.next) : d'.IsOrdered := by
  refine h.extend hr body (.apply bound) fun y hy => ?_
  cases List.mem_singleton.mp hy
  exact Int.le_refl _

theorem Draft.IsOrdered.finish (h : Draft.IsOrdered ⟨s, []⟩) (file : String) (loc : Location) :
    Ordered (s.frame.finish file loc).code := by
  rw [IsOrdered, body, List.append_nil] at h
  rw [Frame.code_finish]
  split
  · exact h.append (.of_defined rfl) (by simp [Instruction.defined?])
  · rwa [List.append_nil]

theorem ordered_parentLink {n : Nat} {parent : Value} (h : parent.id < n) :
    Ordered [parentLink loc (n + 1 : Nat) n parent] := by
  refine .apply (List.forall_mem_cons.mpr ⟨?_, List.forall_mem_singleton.mpr ?_⟩)
  · exact Int.ofNat_lt.mpr (Nat.lt_succ_self n)
  · exact Int.lt_trans h (Int.ofNat_lt.mpr (Nat.lt_succ_self n))

theorem Draft.IsOrdered.enterBlock (h : Draft.IsOrdered ⟨s, []⟩) (hr : Ready ⟨s, []⟩)
    {parent : Id} (own : parent ∈ Draft.defined ⟨s, []⟩) (loc : Location) :
    Draft.IsOrdered ⟨s.enterBlock loc parent, []⟩ := by
  have hbranch : Ordered [.branch loc (some (.own s.frame.blocks.length))] := .of_defined rfl
  have hscope : Ordered [.apply loc s.scopes.next .newObject []] := .apply (by simp)
  have hlink : Ordered [parentLink loc (s.scopes.next + 1 : Nat) s.scopes.next (.ofScope parent)] :=
    ordered_parentLink (hr.defined parent own)
  have hnew := hbranch.append (hscope.append hlink ?_) (by simp [Instruction.defined?])
  · refine h.extend hr (s.body_enterBlock loc parent hr.blocks) hnew ?_
    intro y hy
    have hy : y ∈ [(s.scopes.next : Int), (s.scopes.next + 1 : Nat)] := hy
    simp only [List.mem_cons, List.not_mem_nil, or_false] at hy
    show (s.scopes.next : Int) ≤ y
    omega
  · rintro x hx y hy
    cases List.mem_singleton.mp hx
    cases List.mem_singleton.mp hy
    exact Int.ofNat_lt.mpr (Nat.lt_succ_self _)

theorem Draft.IsOrdered.leaveBlock (h : Draft.IsOrdered ⟨s, []⟩) (loc : Location) (parent : Id) :
    Draft.IsOrdered ⟨s.leaveBlock loc parent, []⟩ := by
  obtain ⟨branches, hb, hall⟩ := s.body_leaveBlock loc parent
  have hnone : branches.filterMap Instruction.defined? = [] := by
    refine List.filterMap_eq_nil_iff.mpr fun i hi => ?_
    obtain ⟨target, rfl⟩ := hall i hi
    rfl
  unfold IsOrdered
  rw [hb]
  exact Ordered.append h (.of_defined hnone) (by simp [hnone])

theorem isOrdered_enter (s : Compilation) (definition : FunctionDefinition) (params : List Node)
    (loc : Location) {before : List Block}
    (h : Ordered (before.reverse.flatMap (·.instructions)))
    (below : ∀ x : Int, x ∈ (before.reverse.flatMap (·.instructions)).filterMap
      Instruction.defined? → x < s.scopes.next) :
    Draft.IsOrdered ⟨s.enter definition params loc before, []⟩ := by
  have hlt : s.scopes.next < s.enteredScope params := by
    unfold Compilation.enteredScope
    omega
  have hscope : Ordered [.scope loc (s.enteredScope params)] :=
    ⟨List.pairwise_singleton _ _, List.forall_mem_singleton.mpr trivial⟩
  have hlink : Ordered [parentLink loc (s.enteredScope params + 1 : Nat) (s.enteredScope params)
      (.ref s.scopes.next)] := ordered_parentLink (Int.ofNat_lt.mpr hlt)
  unfold Draft.IsOrdered
  rw [s.body_enter]
  refine h.append (hscope.append hlink ?_) fun (x : Int) hx (y : Int) hy => ?_
  · rintro x hx y hy
    cases List.mem_singleton.mp hx
    cases List.mem_singleton.mp hy
    exact Int.ofNat_lt.mpr (Nat.lt_succ_self _)
  · have hx := below x hx
    have hy : y ∈ [(s.enteredScope params : Int), (s.enteredScope params + 1 : Nat)] := hy
    simp only [List.mem_cons, List.not_mem_nil, or_false] at hy
    show x < y
    omega

/-- Runs keep the code ordered, and the functions that end in them are. -/
theorem Run.isOrdered (h : Run loose d w d') (hr : Ready d) (hd : d.IsOrdered) :
    d'.IsOrdered ∧ ∀ f ∈ d'.state.functions, f ∈ d.state.functions ∨ Ordered f.code := by
  induction h with
  | trans h _ ih ih₁ =>
    obtain ⟨hd₁, hf⟩ := ih hr hd
    obtain ⟨hd₂, hf₁⟩ := ih₁ (h.ready hr) hd₁
    exact ⟨hd₂, fun f hmem => (hf₁ f hmem).elim (hf f) .inr⟩
  | call s code loc callee operands _ usable _ =>
    exact ⟨hd.apply hr (Draft.body_append rfl _) fun v hv => (usable v hv).bound, fun _ => .inl⟩
  | create s code loc kind literals _ =>
    exact ⟨hd.apply hr (Draft.body_append rfl _) (by simp), fun _ => .inl⟩
  | @object s s₁ code code₁ w x kind inner ih =>
    exact ih (hr.push kind) hd
  | @block s s₁ w parent kind rest loc opened chain own inner ih =>
    obtain ⟨hd₁, hf⟩ := ih (hr.enterBlock loc parent) (hd.enterBlock hr own loc)
    exact ⟨hd₁.leaveBlock loc parent, hf⟩
  | @function s s₁ w _ code definition params body loc _ _ inner ih =>
    obtain ⟨hd₁, hf⟩ := ih (hr.enter definition params loc)
      (isOrdered_enter s.spend definition params loc (.of_defined rfl) (by simp))
    refine ⟨hd.apply hr (Draft.body_append rfl _) (by simp), fun f hmem => ?_⟩
    rcases List.mem_append.mp hmem with hmem | hmem
    · exact hf f hmem
    · cases List.mem_singleton.mp hmem
      exact .inr (hd₁.finish s₁.file loc)
  | start s code scope loc _ _ _ =>
    refine ⟨?_, fun _ => .inl⟩
    rwa [Draft.IsOrdered, Draft.body_start]
  | place s code opened =>
    refine ⟨?_, fun _ => .inl⟩
    rwa [Draft.IsOrdered, Draft.body_place hr.blocks]
  | ret s code loc value opened has _ =>
    refine ⟨?_, fun _ => .inl⟩
    rw [Draft.IsOrdered, Draft.body_ret hr.blocks]
    exact Ordered.append hd (.of_defined rfl) (by simp [Instruction.defined?])
  | _ => exact ⟨hd, fun _ => .inl⟩

theorem Prologue.ordered {n : Nat} {hosted : List Constant} (h : Prologue loc n hosted code) :
    Ordered code ∧ ∀ c ∈ hosted, (c.id : Int) < n := by
  induction h with
  | scope =>
    exact ⟨⟨List.pairwise_singleton _ _, List.forall_mem_singleton.mpr trivial⟩, by simp⟩
  | @host n hosted code name _ ih =>
    refine ⟨ih.1, fun c hc => ?_⟩
    rcases List.mem_append.mp hc with hc | hc
    · exact Int.lt_trans (ih.2 c hc) (Int.ofNat_lt.mpr (Nat.lt_succ_self n))
    · cases List.mem_singleton.mp hc
      exact Int.ofNat_lt.mpr (Nat.lt_succ_self n)
  | @seed n hosted code name value global hp ih =>
    have hzero : (0 : Int) < n := Int.ofNat_lt.mpr hp.next_pos
    have hvalue : value.id < (n : Int) := by
      rcases global with rfl | rfl | ⟨c, hc, rfl⟩
      · exact Int.lt_trans (by decide) hzero
      · exact hzero
      · exact ih.2 c hc
    refine ⟨ih.1.append (.apply ?_) fun x hx y hy => ?_,
      fun c hc => Int.lt_trans (ih.2 c hc) (Int.ofNat_lt.mpr (Nat.lt_succ_self n))⟩
    · exact List.forall_mem_cons.mpr ⟨hzero, List.forall_mem_singleton.mpr hvalue⟩
    obtain ⟨i, hi, hx⟩ := List.mem_filterMap.mp hx
    cases List.mem_singleton.mp hy
    exact (hp.defined_lt i hi x hx).2

section Programs

variable {file : String} {hosts : List String} {node : Node} {functions : List Function}
  {result : Compilation}

theorem ProgramRun.ordered (p : ProgramRun loose file hosts node functions result) :
    ∀ f ∈ functions, Ordered f.code := by
  intro f hf
  have hbranch : Ordered [.branch p.loc (some (.own 1))] := .of_defined rfl
  have hcode : ([(⟨0, 0, p.prologue ++ [.branch p.loc (some (.own 1))], p.loc⟩ :
      Block)].reverse.flatMap (·.instructions)) = p.prologue ++ [.branch p.loc (some (.own 1))] := by
    simp
  have hstart : Draft.IsOrdered ⟨p.seeded.enterMain file p.loc p.prologue, []⟩ := by
    refine isOrdered_enter _ _ _ _ ?_ fun x hx => ?_
    · rw [hcode]
      exact p.seeds.prologue.ordered.1.append hbranch (by simp [Instruction.defined?])
    · rw [hcode, List.filterMap_append] at hx
      obtain ⟨i, hi, hx⟩ := List.mem_filterMap.mp ((List.mem_append.mp hx).resolve_right
        (by simp [Instruction.defined?]))
      exact (p.seeds.prologue.defined_lt i hi x hx).2
  have hfunctions : (p.seeded.enterMain file p.loc p.prologue).functions = [] := p.seeds.functions
  obtain ⟨hd, hdone⟩ := p.run.isOrdered p.seeds.ready hstart
  rcases p.mem_functions.mp hf with hf | rfl
  · exact (hdone f hf).resolve_left fun hold => by simp [hfunctions] at hold
  · exact hd.finish file p.loc

def Function.Introduces (f : Function) (id : Id) : Prop :=
  id ∈ f.parameters.map (·.id) ∨ id ∈ f.code.filterMap Instruction.dest? ∨
    id ∈ f.code.filterMap Instruction.declares?

theorem Function.introduces_of_mem_defined {f : Function} {id : Id} (h : id ∈ f.defined) :
    f.Introduces id := by
  rcases List.mem_append.mp h with h | h
  · exact .inl h
  · have hcount := count_defined? f.code id
    have hpos := List.count_pos_iff.mpr h
    by_cases hd : id ∈ f.code.filterMap Instruction.dest?
    · exact .inr (.inl hd)
    · rw [hcount, List.count_eq_zero.mpr hd, Nat.zero_add] at hpos
      exact .inr (.inr (List.count_pos_iff.mp hpos))

/-- No value that the code takes dangles. -/
theorem ProgramRun.exists_introduces (p : ProgramRun loose file hosts node functions result)
    {f : Function} (hf : f ∈ functions) {i : Instruction} (hi : i ∈ f.code) {v : Value}
    (hv : v ∈ i.values) (hc : v.isConstant = false) : ∃ g ∈ functions, g.Introduces v.id := by
  obtain ⟨front, rest, hcode⟩ := List.append_of_mem hi
  have hsupplied := p.isSupplied f hf
  rw [Function.IsSupplied, hcode, Supplied.append] at hsupplied
  rcases hsupplied.2.1 v hv with (hconst | hid) | ⟨-, hb⟩
  · exact absurd hconst (by simp [hc])
  · refine ⟨f, hf, Function.introduces_of_mem_defined ?_⟩
    rw [Function.defined, hcode, List.filterMap_append, ← List.append_assoc]
    exact List.mem_append_left _ hid
  · obtain ⟨g, hg, -, hid⟩ := p.exists_lender hc hb
    exact ⟨g, hg, Function.introduces_of_mem_defined hid⟩

def FlowsInto (functions : List Function) (x y : Id) : Prop :=
  ∃ f ∈ functions, ∃ i ∈ f.code, y ∈ i.dest? ∧ ∃ v ∈ i.values, v.id = x

theorem lt_of_flowsInto (h : ∀ f ∈ functions, Ordered f.code) {x y : Id}
    (hxy : Relation.TransGen (FlowsInto functions) x y) : x < y := by
  have hstep : ∀ {x y : Id}, FlowsInto functions x y → x < y := by
    rintro x y ⟨f, hf, i, hi, hy, v, hv, rfl⟩
    exact ((h f hf).operands i hi).lt hy hv
  induction hxy with
  | single hxy => exact hstep hxy
  | tail _ hyz ih => exact Int.lt_trans ih (hstep hyz)

end Programs

/-- Data flow of a file in the order of its ids. -/
structure FlowsById (functions : List Function) : Prop where
  indexes : ∀ f ∈ functions, ∀ (i : Nat) (block : Block), f.blocks[i]? = some block →
    block.index = i
  increasing : ∀ f ∈ functions,
    ((f.blocks.flatMap (·.instructions)).filterMap Instruction.dest?).Pairwise (· < ·)
  older : ∀ f ∈ functions, ∀ block ∈ f.blocks, ∀ i ∈ block.instructions, i.IsOrdered
  grounded : ∀ f ∈ functions, ∀ block ∈ f.blocks, ∀ i ∈ block.instructions, ∀ v ∈ i.values,
    v.isConstant = false → ∃ g ∈ functions, g.Introduces v.id
  acyclic : ∀ x, ¬ Relation.TransGen (FlowsInto functions) x x

/-- Functions call in the order of their blocks, with increasing destinations and with operands
that are older than the destination. What is not a constant comes from a parameter, a call or
a declared scope of the file, so that data flow has no cycle and no loose end. -/
theorem lower_flowsById {file : String} {hosts : List String} {node : Node}
    {functions : List Function} (h : (lower file hosts node).1 = .ok functions) :
    FlowsById functions := by
  obtain ⟨_, ⟨p⟩⟩ := exists_programRun h
  have hordered := p.ordered
  exact {
    indexes := fun f hf _ _ hb => ((linear_of_mem p.comesFrom f hf).getElem? hb).1
    increasing := fun f hf => (hordered f hf).dests
    older := fun f hf block hb i hi =>
      (hordered f hf).operands i (List.mem_flatMap.mpr ⟨block, hb, hi⟩)
    grounded := fun f hf block hb i hi _ hv hc =>
      p.exists_introduces hf (List.mem_flatMap.mpr ⟨block, hb, hi⟩) hv hc
    acyclic := fun x hcycle => Int.lt_irrefl x (lt_of_flowsInto hordered hcycle) }

theorem lower_leakedArgument_flowsById : ∃ functions,
    (lower "f.js" [] leakedArgument).1 = .ok functions ∧
      functions.map (fun f => f.code.filterMap Instruction.dest?) =
        [[13, 14, 15, 16], [1, 2, 3, 4, 7, 8, 9, 17, 18, 19, 20]] ∧
      FlowsById functions := by
  obtain ⟨functions, h, hdests⟩ := Outcome.exists_ok (x := (lower "f.js" [] leakedArgument).1)
    (f := List.map fun f => f.code.filterMap Instruction.dest?)
    (b := [[13, 14, 15, 16], [1, 2, 3, 4, 7, 8, 9, 17, 18, 19, 20]]) (by decide +kernel)
  exact ⟨functions, h, hdests, lower_flowsById h⟩

end ScopeIR
