import Mathlib.Data.List.Nodup
import Mathlib.Data.List.Pairwise
import ScopeIR.Proofs.Accesses

/-! Where operands come from. They are parameters of their function or results of code further
up, except for those that a name was given by a write in another function. -/
namespace ScopeIR

variable {loose : Prop} {d d' : Draft} {w : Work} {borrowed : Value → Prop} {ids : List Id}
  {code more : List Instruction}

/-- Every value that the code takes is a constant, has one of the ids or one that is defined
further up, or is borrowed by a call. -/
def Supplied (borrowed : Value → Prop) (ids : List Id) : List Instruction → Prop
  | [] => True
  | i :: rest =>
    (∀ v ∈ i.values, (v.isConstant ∨ v.id ∈ ids) ∨ i.isTerminator = false ∧ borrowed v) ∧
      Supplied borrowed (ids ++ i.defined?.toList) rest

namespace Supplied

theorem append : Supplied borrowed ids (code ++ more) ↔ Supplied borrowed ids code ∧
    Supplied borrowed (ids ++ code.filterMap Instruction.defined?) more := by
  induction code generalizing ids with
  | nil => simp [Supplied]
  | cons i rest ih =>
    rw [List.cons_append, Supplied, Supplied, ih, and_assoc]
    cases hi : i.defined? <;> simp [hi]

theorem mono {others : Value → Prop} (h : Supplied borrowed ids code)
    (himp : ∀ v, borrowed v → others v) : Supplied others ids code := by
  induction code generalizing ids with
  | nil => trivial
  | cons i rest ih => exact ⟨fun v hv => (h.1 v hv).imp_right (And.imp_right (himp v)), ih h.2⟩

end Supplied

theorem supplied_of_values (h : ∀ i ∈ code, i.values = []) : Supplied borrowed ids code := by
  induction code generalizing ids with
  | nil => trivial
  | cons i rest ih =>
    refine ⟨by simp [h i List.mem_cons_self], ih fun j hj => h j (List.mem_cons_of_mem _ hj)⟩

theorem Borrowed.mono {accesses others : List Access} {parameters : List Parameter} {v : Value}
    (h : Borrowed accesses parameters v) (hsub : accesses ⊆ others) :
    Borrowed others parameters v :=
  h.imp fun _ ⟨ha, h⟩ => ⟨hsub ha, h⟩

def Function.IsSupplied (f : Function) (accesses : List Access) : Prop :=
  Supplied (Borrowed accesses f.parameters) (f.parameters.map (·.id)) f.code

def Draft.IsSupplied (d : Draft) : Prop :=
  Supplied d.Borrows (d.state.frame.parameters.map (·.id)) d.body

namespace Draft

theorem IsSupplied.extend (h : d.IsSupplied)
    (parameters : d'.state.frame.parameters = d.state.frame.parameters)
    (accesses : d.state.accesses ⊆ d'.state.accesses) (body : d'.body = d.body ++ more)
    (new : Supplied d'.Borrows d.defined more) : d'.IsSupplied := by
  unfold IsSupplied
  rw [body, parameters, Supplied.append]
  refine ⟨Supplied.mono h fun v hv => ?_, new⟩
  show Borrowed d'.state.accesses d'.state.frame.parameters v
  rw [parameters]
  exact Borrowed.mono hv accesses

theorem IsSupplied.finish {s : Compilation} (h : IsSupplied ⟨s, []⟩) (file : String)
    (loc : Location) : (s.frame.finish file loc).IsSupplied s.accesses := by
  rw [IsSupplied, body, List.append_nil] at h
  rw [Function.IsSupplied, Frame.code_finish]
  refine Supplied.append.mpr ⟨h, ?_⟩
  split
  · refine ⟨fun v hv => .inl (.inl ?_), trivial⟩
    cases List.mem_singleton.mp hv
    rfl
  · trivial

end Draft

theorem Function.IsSupplied.mono {f : Function} {accesses others : List Access}
    (h : f.IsSupplied accesses) (hsub : accesses ⊆ others) : f.IsSupplied others :=
  Supplied.mono h fun _ hv => hv.mono hsub

theorem isSupplied_enterBlock {s : Compilation} (h : Draft.IsSupplied ⟨s, []⟩)
    (hb : s.frame.blocks ≠ []) {parent : Id} (own : parent ∈ Draft.defined ⟨s, []⟩)
    (loc : Location) : Draft.IsSupplied ⟨s.enterBlock loc parent, []⟩ := by
  refine h.extend (s.parameters_enterBlock loc parent) (List.Subset.refl _)
    (s.body_enterBlock loc parent hb) ⟨by simp [Instruction.values], by simp, ?_, trivial⟩
  intro v hv
  simp only [parentLink, Instruction.values_apply, List.mem_cons, List.not_mem_nil, or_false] at hv
  rcases hv with rfl | rfl <;> refine .inl (.inr ?_)
  · exact List.mem_append_right _ List.mem_cons_self
  · exact List.mem_append_left _ (List.mem_append_left _ own)

theorem Draft.IsSupplied.leaveBlock {s : Compilation} (h : Draft.IsSupplied ⟨s, []⟩)
    (loc : Location) (parent : Id) : Draft.IsSupplied ⟨s.leaveBlock loc parent, []⟩ := by
  obtain ⟨branches, hb, hall⟩ := s.body_leaveBlock loc parent
  refine h.extend (Compilation.parameters_leaveBlock loc parent) (List.Subset.refl _) hb
    (supplied_of_values fun i hi => ?_)
  obtain ⟨target, rfl⟩ := hall i hi
  rfl

theorem isSupplied_enter (s : Compilation) (definition : FunctionDefinition) (params : List Node)
    (loc : Location) {before : List Block}
    (h : ∀ borrowed ids, Supplied borrowed ids (before.reverse.flatMap (·.instructions))) :
    Draft.IsSupplied ⟨s.enter definition params loc before, []⟩ := by
  unfold Draft.IsSupplied
  rw [s.body_enter, Supplied.append]
  refine ⟨h _ _, by simp [Instruction.values], ?_, trivial⟩
  intro v hv
  simp only [parentLink, Instruction.values_apply, List.mem_cons, List.not_mem_nil, or_false] at hv
  rcases hv with rfl | rfl <;> refine .inl (.inr ?_)
  · exact List.mem_append_right _ List.mem_cons_self
  · exact List.mem_append_left _ (List.mem_append_left _ List.mem_cons_self)

/-- Runs keep the code supplied, and the functions that end in them are. -/
theorem Run.isSupplied (h : Run loose d w d') (hb : d.state.frame.blocks ≠ [])
    (hd : d.IsSupplied) : d'.IsSupplied ∧ ∀ f ∈ d'.state.functions,
      f ∈ d.state.functions ∨ f.IsSupplied d'.state.accesses := by
  induction h with
  | trans h h₁ ih ih₁ =>
    obtain ⟨hd₁, hf⟩ := ih hb hd
    obtain ⟨hd₂, hf₁⟩ := ih₁ (h.extends.blocks hb) hd₁
    refine ⟨hd₂, fun f hmem => ?_⟩
    rcases hf₁ f hmem with hmem | hs
    · exact (hf f hmem).imp_right (·.mono h₁.extends.accesses.subset)
    · exact .inr hs
  | call s code loc callee operands _ usable _ =>
    refine ⟨hd.extend rfl (List.Subset.refl _) (Draft.body_append rfl _) ⟨?_, trivial⟩,
      fun _ => .inl⟩
    rw [Instruction.values_apply]
    exact fun v hv => (usable v hv).source.imp_right (⟨rfl, ·⟩)
  | create s code loc kind literals _ =>
    exact ⟨hd.extend rfl (List.Subset.refl _) (Draft.body_append rfl _) ⟨by simp, trivial⟩,
      fun _ => .inl⟩
  | read s code a _ _ _ _ _ =>
    exact ⟨hd.extend rfl (List.subset_cons_self _ _) (List.append_nil _).symm trivial,
      fun _ => .inl⟩
  | write s code a owner value _ _ _ _ _ _ _ =>
    exact ⟨hd.extend rfl (List.subset_cons_self _ _) (List.append_nil _).symm trivial,
      fun _ => .inl⟩
  | object _ _ ih => exact ih hb hd
  | @block s s₁ w parent kind rest loc opened chain own inner ih =>
    obtain ⟨hd₁, hf⟩ :=
      ih (s.blocks_enterBlock_ne_nil loc parent) (isSupplied_enterBlock hd hb own loc)
    exact ⟨hd₁.leaveBlock loc parent, hf⟩
  | @function s s₁ w _ code definition params body loc _ _ inner ih =>
    obtain ⟨hd₁, hf⟩ := ih (List.cons_ne_nil _ _)
      (isSupplied_enter s.spend definition params loc fun _ _ => trivial)
    refine ⟨hd.extend rfl inner.extends.accesses.subset (Draft.body_append rfl _)
      ⟨by simp, trivial⟩, fun f hmem => ?_⟩
    rcases List.mem_append.mp hmem with hmem | hmem
    · exact hf f hmem
    · cases List.mem_singleton.mp hmem
      exact .inr (hd₁.finish s₁.file loc)
  | start s code scope loc _ _ _ =>
    exact ⟨hd.extend rfl (List.Subset.refl _)
      ((Draft.body_start scope loc).trans (List.append_nil _).symm) trivial, fun _ => .inl⟩
  | place s code opened =>
    exact ⟨hd.extend (Frame.parameters_extend _ _) (List.Subset.refl _)
      ((Draft.body_place hb).trans (List.append_nil _).symm) trivial, fun _ => .inl⟩
  | ret s code loc value opened has _ =>
    refine ⟨hd.extend (Frame.parameters_extend _ _) (List.Subset.refl _) (Draft.body_ret hb loc _)
      ⟨fun v hv => .inl ?_, trivial⟩, fun _ => .inl⟩
    cases List.mem_singleton.mp hv
    exact has
  | _ => exact ⟨hd, fun _ => .inl⟩

namespace Prologue

variable {loc : Location} {n : Nat} {hosted : List Constant}

theorem zero_mem (h : Prologue loc n hosted code) :
    (0 : Id) ∈ code.filterMap Instruction.defined? :=
  List.mem_filterMap.mpr ⟨_, h.scope_mem, rfl⟩

theorem supplied (h : Prologue loc n hosted code) : Supplied borrowed ids code := by
  induction h with
  | scope => exact ⟨by simp [Instruction.values], trivial⟩
  | host _ _ ih => exact ih
  | seed name value global hp ih =>
    refine Supplied.append.mpr ⟨ih, fun v hv => .inl ?_, trivial⟩
    have hzero : Value.id (.ofScope 0) ∈ ids ++ List.filterMap Instruction.defined? _ :=
      List.mem_append_right ids hp.zero_mem
    simp only [Instruction.values_apply, List.mem_cons, List.not_mem_nil, or_false] at hv
    rcases hv with rfl | rfl
    · exact .inr hzero
    · rcases global with rfl | rfl | ⟨c, -, rfl⟩
      · exact .inl rfl
      · exact .inr hzero
      · exact .inl rfl

end Prologue

section Programs

variable {file : String} {hosts : List String} {node : Node} {functions : List Function}
  {result : Compilation}

theorem ProgramRun.isSupplied (p : ProgramRun loose file hosts node functions result) :
    ∀ f ∈ functions, f.IsSupplied result.accesses := by
  intro f hf
  have hprologue : ∀ borrowed ids, Supplied borrowed ids ([(⟨0, 0, p.prologue ++
      [.branch p.loc (some (.own 1))], p.loc⟩ : Block)].reverse.flatMap (·.instructions)) := by
    intro borrowed ids
    simp only [List.reverse_singleton, List.flatMap_singleton]
    exact Supplied.append.mpr ⟨p.seeds.prologue.supplied, by simp [Instruction.values], trivial⟩
  have hfunctions : (p.seeded.enterMain file p.loc p.prologue).functions = [] := p.seeds.functions
  obtain ⟨hd, hdone⟩ := p.run.isSupplied (List.cons_ne_nil _ _)
    (isSupplied_enter _ _ _ _ hprologue)
  have htrace : p.final.accesses ⊆ result.accesses := fun a ha => p.accesses ▸ ha
  refine Function.IsSupplied.mono ?_ htrace
  rcases p.mem_functions.mp hf with hf | rfl
  · exact (hdone f hf).resolve_left fun hold => by simp [hfunctions] at hold
  · exact hd.finish file p.loc

namespace Function

def before (f : Function) (i j : Nat) : List Instruction :=
  (f.blocks.take i).flatMap (·.instructions) ++
    (f.blocks[i]?.elim [] (·.instructions)).take j

/-- The value has a meaning at a position: its id is that of a parameter, or defined by an
instruction further up. -/
def Available (f : Function) (i j : Nat) (v : Value) : Prop :=
  v.id ∈ f.parameters.map (·.id) ∨ v.id ∈ (f.before i j).filterMap Instruction.defined?

theorem exists_code_eq {f : Function} {i j : Nat} {block : Block} {instruction : Instruction}
    (hi : f.blocks[i]? = some block) (hj : block.instructions[j]? = some instruction) :
    ∃ rest, f.code = f.before i j ++ instruction :: rest := by
  obtain ⟨hlt, rfl⟩ := List.getElem?_eq_some_iff.mp hi
  obtain ⟨hlt', rfl⟩ := List.getElem?_eq_some_iff.mp hj
  refine ⟨f.blocks[i].instructions.drop (j + 1) ++
    (f.blocks.drop (i + 1)).flatMap (·.instructions), ?_⟩
  have hblocks : f.code = (f.blocks.take i).flatMap (·.instructions) ++
      (f.blocks[i].instructions ++ (f.blocks.drop (i + 1)).flatMap (·.instructions)) := by
    rw [code, ← List.flatMap_cons, ← List.flatMap_append, ← List.drop_eq_getElem_cons hlt,
      List.take_append_drop]
  rw [hblocks, before, hi, Option.elim_some, List.append_assoc, ← List.cons_append,
    ← List.drop_eq_getElem_cons hlt', ← List.append_assoc (List.take _ _), List.take_append_drop]

theorem Available.mem_defined {f : Function} {i j : Nat} {v : Value} (h : f.Available i j v)
    {rest : List Instruction} (hcode : f.code = f.before i j ++ rest) : v.id ∈ f.defined := by
  rw [defined, hcode, List.filterMap_append]
  rcases h with h | h
  · exact List.mem_append_left _ h
  · exact List.mem_append_right _ (List.mem_append_left _ h)

theorem IsSupplied.available {f : Function} {accesses : List Access} (h : f.IsSupplied accesses)
    {i j : Nat} {instruction : Instruction} {rest : List Instruction}
    (hcode : f.code = f.before i j ++ instruction :: rest) {v : Value}
    (hv : v ∈ instruction.values) (hc : v.isConstant = false) :
    f.Available i j v ∨ instruction.isTerminator = false ∧ Borrowed accesses f.parameters v := by
  rw [IsSupplied, hcode, Supplied.append] at h
  refine (h.2.1 v hv).imp_left fun hid => ?_
  simpa [hc, Available] using hid

end Function

instance {f : Function} {i j : Nat} {v : Value} : Decidable (f.Available i j v) :=
  inferInstanceAs (Decidable (_ ∨ _))

theorem ProgramRun.eq_of_mem_defined (p : ProgramRun loose file hosts node functions result)
    {f g : Function} (hf : f ∈ functions) (hg : g ∈ functions) {id : Id} (hid : id ∈ f.defined)
    (hid' : id ∈ g.defined) : f = g := by
  have : Std.Symm fun f g : Function => List.Disjoint f.defined g.defined :=
    ⟨fun _ _ h => List.disjoint_symm h⟩
  have hdisjoint : functions.Pairwise fun f g => List.Disjoint f.defined g.defined :=
    (List.nodup_flatMap.mp p.nodup_defined).2
  by_contra hne
  exact hdisjoint.forall hf hg hne hid hid'

theorem ProgramRun.exists_lender (p : ProgramRun loose file hosts node functions result)
    {f : Function} {v : Value} (hc : v.isConstant = false)
    (hb : Borrowed result.accesses f.parameters v) :
    ∃ g ∈ functions, g ≠ f ∧ v.id ∈ g.defined := by
  obtain ⟨a, ha, hstored, hne⟩ := hb
  obtain ⟨g, hg, hown⟩ := p.exists_owner a ha
  refine ⟨g, hg, ?_, (hown.stored v hstored).resolve_left (by simp [hc])⟩
  rintro rfl
  exact hne hown.parameters

end Programs

/-- Operands are available where they are used, except for exactly the borrowed ones: the
values that a write to a name stored in another function. These belong to that function, and
only calls take them. -/
theorem operands_available {file : String} {hosts : List String} {node : Node}
    {functions : List Function} {s : Compilation}
    (h : Lower.program hosts node (.start file) = .ok functions s) {f : Function}
    (hf : f ∈ functions) {i j : Nat} {block : Block} {instruction : Instruction}
    (hi : f.blocks[i]? = some block) (hj : block.instructions[j]? = some instruction) {v : Value}
    (hv : v ∈ instruction.values) (hc : v.isConstant = false) :
    (f.Available i j v ↔ ¬ Borrowed s.accesses f.parameters v) ∧
      (instruction.isTerminator → f.Available i j v) ∧
      (¬ f.Available i j v → ∃ g ∈ functions, g ≠ f ∧ v.id ∈ g.defined) := by
  have hquiet : Quiet True node := fun _ => trivial
  obtain ⟨p⟩ := Lower.program_eq_ok hquiet h
  obtain ⟨rest, hcode⟩ := Function.exists_code_eq hi hj
  have hsupplied := (p.isSupplied f hf).available hcode hv hc
  refine ⟨⟨fun havailable hb => ?_, fun hb => ?_⟩, fun ht => ?_, fun hnot => ?_⟩
  · obtain ⟨g, hg, hne, hid⟩ := p.exists_lender hc hb
    exact hne (p.eq_of_mem_defined hg hf hid (havailable.mem_defined hcode))
  · exact hsupplied.resolve_right fun h => hb h.2
  · exact hsupplied.resolve_right fun h => by simp [ht] at h
  · exact p.exists_lender hc (hsupplied.resolve_left hnot).2

/-- `var x; function g(a) { x = a; } h(x);` -/
def leakedArgument : Node :=
  .program {} "script" [
    .variableDeclaration {} "var" [.variableDeclarator {} (.identifier {} "x") .missing],
    .functionDeclaration {} (.identifier {} "g") [.identifier {} "a"] (.blockStatement {} [
      .expressionStatement {} (.assignment {} "=" (.identifier {} "x") (.identifier {} "a"))]),
    .expressionStatement {} (.call {} (.identifier {} "h") [.identifier {} "x"] false)]

theorem leakedArgument_not_available : ∃ functions s,
    Lower.program [] leakedArgument (.start "f.js") = .ok functions s ∧
      ∃ f ∈ functions, ∃ block instruction v, f.blocks[1]? = some block ∧
        block.instructions[7]? = some instruction ∧ v ∈ instruction.values ∧
        v.isConstant = false ∧ ¬ f.Available 1 7 v ∧ Borrowed s.accesses f.parameters v ∧
        ∃ g ∈ functions, g ≠ f ∧ v.id ∈ g.defined := by
  obtain ⟨functions, s, h, hs⟩ := Lower.exists_program_ok "f.js" [] leakedArgument
    (fun functions _ => do
      let f ← functions[1]?
      let block ← f.blocks[1]?
      let instruction ← block.instructions[7]?
      let v ← instruction.values[2]?
      return (v.isConstant, decide (f.Available 1 7 v)))
    (b := some (false, false)) (by decide +kernel)
  simp only [Option.bind_eq_bind, Option.bind_eq_some_iff, Option.pure_def, Option.some.injEq,
    Prod.mk.injEq, decide_eq_false_iff_not] at hs
  obtain ⟨f, hf, block, hi, instruction, hj, v, hv, hc, hnot⟩ := hs
  have hf := List.mem_of_getElem? hf
  have hv := List.mem_of_getElem? hv
  obtain ⟨hiff, -, hlender⟩ := operands_available h hf hi hj hv hc
  have hborrowed := Classical.not_not.mp (mt hiff.mpr hnot)
  exact ⟨functions, s, h, f, hf, block, instruction, v, hi, hj, hv, hc, hnot, hborrowed,
    hlender hnot⟩

end ScopeIR
