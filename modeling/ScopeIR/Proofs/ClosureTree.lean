import Mathlib.Data.List.Infix
import Mathlib.Data.List.Range
import ScopeIR.Proofs.Complete

/-! The functions of a file as a tree. A function lists the objects that its body creates of
other functions, and these are its children. The output is the post-order of that tree, with
the implicit function at its root. -/
namespace ScopeIR

variable {loose : Prop} {d d' : Draft} {w : Work} {functions others : List Function}
  {roots order : List Nat}

def linkedPositions (closures : List (Id × Option FunctionLink)) : List Nat :=
  closures.filterMap fun c => c.2.bind (·.position)

theorem linkedPositions_append (closures more : List (Id × Option FunctionLink)) :
    linkedPositions (closures ++ more) = linkedPositions closures ++ linkedPositions more :=
  List.filterMap_append

def Function.children (f : Function) : List Nat := linkedPositions f.closures

/-- Walks over the functions below the given positions: those below the first one, then this
one, then the rest. -/
inductive PostOrder (functions : List Function) : List Nat → List Nat → Prop
  | nil : PostOrder functions [] []
  | cons {position : Nat} {f : Function} {roots below rest : List Nat}
      (here : functions[position]? = some f) (inner : PostOrder functions f.children below)
      (more : PostOrder functions roots rest) :
      PostOrder functions (position :: roots) (below ++ position :: rest)

namespace PostOrder

theorem append {roots' order' : List Nat} (h : PostOrder functions roots order)
    (h' : PostOrder functions roots' order') :
    PostOrder functions (roots ++ roots') (order ++ order') := by
  induction h with
  | nil => exact h'
  | cons here inner _ _ ih =>
    rw [List.append_assoc, List.cons_append]
    exact .cons here inner ih

theorem mono (h : PostOrder functions roots order) (hp : functions <+: others) :
    PostOrder others roots order := by
  induction h with
  | nil => exact .nil
  | cons here _ _ ih ih₁ =>
    have hkept := getElem?_of_prefix hp here
    exact .cons hkept ih ih₁

theorem single {position : Nat} {f : Function} (here : functions[position]? = some f)
    (h : PostOrder functions f.children order) :
    PostOrder functions [position] (order ++ [position]) :=
  .cons here h .nil

open scoped List in
/-- All that a walk visits is a root or a child of what it visits, each time once. -/
theorem perm (h : PostOrder functions roots order) :
    ((order.flatMap fun i => functions[i]?.elim [] Function.children) ++ roots).Perm order := by
  induction h with
  | nil => exact .nil
  | @cons position f roots below rest here inner more ih ih₁ =>
    rw [List.flatMap_append, List.flatMap_cons, here, Option.elim_some]
    generalize (below.flatMap fun i => functions[i]?.elim [] Function.children) = children at *
    generalize (rest.flatMap fun i => functions[i]?.elim [] Function.children) = others at *
    calc children ++ (f.children ++ others) ++ position :: roots
        = (children ++ f.children) ++ (others ++ position :: roots) := by
          simp only [List.append_assoc]
      _ ~ below ++ (others ++ position :: roots) := ih.append_right _
      _ ~ below ++ position :: (others ++ roots) := List.perm_middle.append_left _
      _ ~ below ++ position :: rest := (ih₁.cons position).append_left _

theorem roots_subset (h : PostOrder functions roots order) : roots ⊆ order :=
  fun _ hi => h.perm.subset (List.mem_append_right _ hi)

theorem children_lt (h : PostOrder functions roots order) (hs : order.Pairwise (· < ·))
    {i : Nat} (hi : i ∈ order) {f : Function} (hf : functions[i]? = some f) :
    ∀ j ∈ f.children, j < i := by
  induction h with
  | nil => cases hi
  | @cons position g roots below rest here inner more ih ih₁ =>
    obtain ⟨hbelow, hrest, hlt⟩ := List.pairwise_append.mp hs
    rcases List.mem_append.mp hi with hi | hi
    · exact ih hbelow hi
    · rcases List.mem_cons.mp hi with rfl | hi
      · cases hf.symm.trans here
        exact fun j hj => hlt j (inner.roots_subset hj) _ List.mem_cons_self
      · exact ih₁ (List.pairwise_cons.mp hrest).2 hi

end PostOrder

/-- The functions that a run adds are walked from those that it adds objects of. -/
theorem Run.postOrder (h : Run loose d w d') : ∃ roots count,
    linkedPositions d'.state.frame.closures = linkedPositions d.state.frame.closures ++ roots ∧
      d'.state.functions.length = d.state.functions.length + count ∧
      PostOrder d'.state.functions roots (List.range' d.state.functions.length count) := by
  induction h with
  | trans h h₁ ih ih₁ =>
    obtain ⟨roots, count, hr, hc, hp⟩ := ih
    obtain ⟨roots₁, count₁, hr₁, hc₁, hp₁⟩ := ih₁
    refine ⟨roots ++ roots₁, count + count₁, ?_, by omega, ?_⟩
    · rw [hr₁, hr, List.append_assoc]
    · rw [← List.range'_append_1, ← hc]
      exact (hp.mono h₁.extends.functions).append hp₁
  | object _ _ ih => exact ih
  | @block s s₁ w parent kind rest loc opened chain own inner ih =>
    rw [Compilation.closures_leaveBlock]
    rwa [Compilation.closures_enterBlock] at ih
  | @function s s₁ w _ code definition params body loc _ _ inner ih =>
    obtain ⟨roots, count, hr, hc, hp⟩ := ih
    have hc : s₁.functions.length = s.functions.length + count := hc
    have hchildren : (s₁.frame.finish s₁.file loc).children = roots := hr
    refine ⟨[s₁.functions.length], count + 1, linkedPositions_append _ _, ?_, ?_⟩
    · show (s₁.functions ++ [_]).length = _
      rw [List.length_append, List.length_singleton, hc, Nat.add_assoc]
    · rw [List.range'_1_concat, ← hc]
      exact .single List.getElem?_concat_length
        (hchildren.symm ▸ hp.mono (List.prefix_append _ _))
  | place s code opened =>
    exact ⟨[], 0, by simp, rfl, .nil⟩
  | ret s code loc value opened =>
    exact ⟨[], 0, by simp, rfl, .nil⟩
  | _ => exact ⟨[], 0, (List.append_nil _).symm, rfl, .nil⟩

def Function.CreatesObjects (f : Function) : Prop :=
  ∀ c ∈ f.closures, ∃ block ∈ f.blocks, ∃ loc, .apply loc c.1 .newObject [] ∈ block.instructions

def Draft.CreatesObjects (d : Draft) : Prop :=
  ∀ c ∈ d.state.frame.closures, ∃ loc, d.Contains [.apply loc c.1 .newObject []]

theorem Draft.CreatesObjects.extend (h : d.CreatesObjects) (he : Extends d d')
    (hb : d.state.frame.blocks ≠ [])
    (closures : d'.state.frame.closures = d.state.frame.closures) : d'.CreatesObjects := by
  intro c hc
  obtain ⟨loc, hl⟩ := h c (closures ▸ hc)
  exact ⟨loc, he.contains hb _ hl⟩

theorem Draft.CreatesObjects.finish {s : Compilation} (h : Draft.CreatesObjects ⟨s, []⟩)
    (hb : s.frame.blocks ≠ []) (file : String) (loc : Location) :
    (s.frame.finish file loc).CreatesObjects := by
  intro c hc
  obtain ⟨loc', hl⟩ := h c hc
  obtain ⟨block, hblock, hi⟩ := hl.finish hb file loc
  exact ⟨block, hblock, loc', hi.subset List.mem_cons_self⟩

theorem Run.createsObjects (h : Run loose d w d') (hb : d.state.frame.blocks ≠ [])
    (hd : d.CreatesObjects) : d'.CreatesObjects ∧
      ∀ f ∈ d'.state.functions, f ∈ d.state.functions ∨ f.CreatesObjects := by
  have he := h.extends
  induction h with
  | trans h h₁ ih ih₁ =>
    obtain ⟨hd₁, hf⟩ := ih hb hd h.extends
    obtain ⟨hd₂, hf₁⟩ := ih₁ (h.extends.blocks hb) hd₁ h₁.extends
    exact ⟨hd₂, fun f hmem => (hf₁ f hmem).elim (hf f) .inr⟩
  | object kind inner ih => exact ih hb hd inner.extends
  | @block s s₁ w parent kind rest loc opened chain own inner ih =>
    have henter : Draft.CreatesObjects ⟨s.enterBlock loc parent, []⟩ := by
      intro c hc
      rw [s.closures_enterBlock] at hc
      obtain ⟨loc', hl⟩ := hd c hc
      refine ⟨loc', hl.imp_right fun ⟨old, hold, hc⟩ => ?_⟩
      obtain ⟨grown, hg, hgrow⟩ := s.exists_block_enterBlock loc parent hold
      exact ⟨grown, hg, hc.trans hgrow.code.isInfix⟩
    obtain ⟨hd₁, hf⟩ := ih (s.blocks_enterBlock_ne_nil loc parent) henter inner.extends
    refine ⟨fun c hc => ?_, hf⟩
    rw [s₁.closures_leaveBlock] at hc
    obtain ⟨loc', hl⟩ := hd₁ c hc
    exact ⟨loc', Compilation.contains_leaveBlock loc parent hl⟩
  | @function s s₁ w _ code definition params body loc _ _ inner ih =>
    obtain ⟨hd₁, hf⟩ := ih (List.cons_ne_nil _ _) (List.forall_mem_nil _) inner.extends
    refine ⟨fun c hc => ?_, fun f hmem => ?_⟩
    · rcases List.mem_append.mp hc with hc | hc
      · obtain ⟨loc', hl⟩ := hd c hc
        exact ⟨loc', he.contains hb _ hl⟩
      · cases List.mem_singleton.mp hc
        exact ⟨loc, .inl (List.suffix_append _ _).isInfix⟩
    · rcases List.mem_append.mp hmem with hmem | hmem
      · exact hf f hmem
      · cases List.mem_singleton.mp hmem
        exact .inr (hd₁.finish (inner.extends.blocks (List.cons_ne_nil _ _)) s₁.file loc)
  | place s code opened =>
    exact ⟨hd.extend he hb (Frame.closures_extend _ _), fun _ => .inl⟩
  | ret s code loc value opened =>
    exact ⟨hd.extend he hb (Frame.closures_extend _ _), fun _ => .inl⟩
  | _ => exact ⟨hd.extend he hb rfl, fun _ => .inl⟩

/-- The function that holds the statements of a program. It has the implicit parameter alone,
and the global object, which has the first id of all, is declared in it. -/
structure Function.IsImplicit (f : Function) (file : String) : Prop where
  definition : f.definition = .user mainName file
  parameters : f.parameters.map (·.name) = [parentName]
  global : ∃ block ∈ f.blocks, ∃ loc, .scope loc 0 ∈ block.instructions

/-- The functions of a file, each with those that it creates objects of. Their places in the
output are the numbers from zero on. -/
structure FormsTree (file : String) (functions : List Function) : Prop where
  root : ∃ f, functions.getLast? = some f ∧ f.IsImplicit file
  earlier : ∀ (i : Nat) (f : Function), functions[i]? = some f → ∀ c ∈ f.closures,
    ∃ (j : Nat) (g : Function), j < i ∧ functions[j]? = some g ∧
      c.2 = some ⟨g.definition, some j⟩
  objects : ∀ f ∈ functions, f.CreatesObjects
  once : (functions.flatMap (·.children)).Perm (List.range (functions.length - 1))
  postOrder : PostOrder functions [functions.length - 1] (List.range functions.length)

namespace ProgramRun

variable {file : String} {hosts : List String} {node : Node} {result : Compilation}

theorem length_functions (p : ProgramRun loose file hosts node functions result) :
    functions.length = p.final.functions.length + 1 :=
  (congrArg List.length p.output).trans List.length_append

theorem postOrder (p : ProgramRun loose file hosts node functions result) :
    PostOrder functions [functions.length - 1] (List.range functions.length) := by
  have hstart : (p.seeded.enterMain file p.loc p.prologue).functions = [] := p.seeds.functions
  obtain ⟨roots, count, hr, hc, hp⟩ := p.run.postOrder
  have hchildren : (p.final.frame.finish file p.loc).children = roots := hr
  rw [hstart, List.length_nil, Nat.zero_add] at hc
  rw [hstart, List.length_nil, ← hc, ← List.range_eq_range'] at hp
  have hlast : functions[p.final.functions.length]? = some (p.final.frame.finish file p.loc) := by
    have hlast := List.getElem?_concat_length (l := p.final.functions)
      (a := p.final.frame.finish file p.loc)
    rwa [← p.output] at hlast
  rw [p.length_functions, Nat.add_sub_cancel, List.range_succ]
  exact .single hlast (hchildren.symm ▸ hp.mono ⟨_, p.output.symm⟩)

theorem createsObjects (p : ProgramRun loose file hosts node functions result) :
    ∀ f ∈ functions, f.CreatesObjects := by
  intro f hf
  have hstart : (p.seeded.enterMain file p.loc p.prologue).functions = [] := p.seeds.functions
  obtain ⟨hd, hdone⟩ := p.run.createsObjects (List.cons_ne_nil _ _) (List.forall_mem_nil _)
  rcases p.mem_functions.mp hf with hf | rfl
  · exact (hdone f hf).resolve_left fun hold => by simp [hstart] at hold
  · exact hd.finish (p.run.extends.blocks (List.cons_ne_nil _ _)) file p.loc

theorem isImplicit (p : ProgramRun loose file hosts node functions result) :
    (p.final.frame.finish file p.loc).IsImplicit file where
  definition := p.run.extends.definition
  parameters := by
    show p.final.frame.parameters.map (·.name) = _
    rw [p.run.extends.parameters]
    rfl
  global := by
    have hb : (p.seeded.enterMain file p.loc p.prologue).frame.blocks ≠ [] := List.cons_ne_nil _ _
    have hstart : Draft.Contains ⟨p.seeded.enterMain file p.loc p.prologue, []⟩
        [.scope p.loc 0] := by
      refine .inr ⟨_, List.mem_cons_of_mem _ List.mem_cons_self, ?_⟩
      exact (List.singleton_infix_iff _ _).mpr (List.mem_append_left _ p.seeds.prologue.scope_mem)
    have hend := (p.run.extends.contains hb _ hstart).finish (p.run.extends.blocks hb) file p.loc
    obtain ⟨block, hblock, hi⟩ := hend
    exact ⟨block, hblock, p.loc, hi.subset List.mem_cons_self⟩

end ProgramRun

theorem flatMap_children (functions : List Function) :
    ((List.range functions.length).flatMap fun i => functions[i]?.elim [] Function.children) =
      functions.flatMap (·.children) := by
  induction functions using List.reverseRecOn with
  | nil => rfl
  | append_singleton rest f ih =>
    rw [List.length_append, List.length_singleton, List.range_succ, List.flatMap_append,
      List.flatMap_append, ← ih]
    congr 1
    · refine List.flatMap_congr fun i hi => ?_
      rw [List.getElem?_append_left (List.mem_range.mp hi)]
    · simp

/-- The functions of a program form a tree, and the output is its post-order: the implicit
function comes last, a function only creates objects of earlier ones, each function but the
last has one object, and children come in the order of their objects, each after all that is
below it. -/
theorem lower_formsTree {file : String} {hosts : List String} {node : Node}
    {functions : List Function} (h : (lower file hosts node).1 = .ok functions) :
    FormsTree file functions := by
  obtain ⟨_, ⟨p⟩⟩ := exists_programRun h
  have hpost := p.postOrder
  exact {
    root := by
      have hlast := List.getLast?_concat (l := p.final.functions)
        (a := p.final.frame.finish file p.loc)
      rw [← p.output] at hlast
      exact ⟨_, hlast, p.isImplicit⟩
    earlier := fun i f hf c hc => by
      obtain ⟨name, j, g, hlink, hg, hd⟩ :=
        (p.complete f (List.mem_of_getElem? hf)).closures c hc
      have hi : i ∈ List.range functions.length :=
        List.mem_range.mpr (List.getElem?_eq_some_iff.mp hf).1
      have hj : j ∈ f.children := List.mem_filterMap.mpr ⟨c, hc, by rw [hlink]; rfl⟩
      exact ⟨j, g, hpost.children_lt List.pairwise_lt_range hi hf j hj, hg, by rw [hlink, hd]⟩
    objects := p.createsObjects
    once := by
      have hperm := hpost.perm
      rw [flatMap_children] at hperm
      have hrange : List.range functions.length =
          List.range (functions.length - 1) ++ [functions.length - 1] := by
        rw [← List.range_succ, p.length_functions, Nat.add_sub_cancel]
      exact (List.perm_append_right_iff _).mp (hperm.trans (.of_eq hrange))
    postOrder := hpost }

/-- `function f() { return () => { function g() {} }; } function h() {}` -/
def nestedFunctions : Node :=
  .program {} "script" [
    .functionDeclaration {} (.identifier {} "f") [] (.blockStatement {} [
      .returnStatement {} (.arrowFunction {} [] (.blockStatement {} [
        .functionDeclaration {} (.identifier {} "g") [] (.blockStatement {} [])]) false)]),
    .functionDeclaration {} (.identifier {} "h") [] (.blockStatement {} [])]

theorem lower_nestedFunctions_formsTree : ∃ functions,
    (lower "f.js" [] nestedFunctions).1 = .ok functions ∧
      functions.map (·.children) = [[], [0], [1], [], [2, 3]] ∧ FormsTree "f.js" functions := by
  obtain ⟨functions, h, hchildren⟩ := Outcome.exists_ok (x := (lower "f.js" [] nestedFunctions).1)
    (f := List.map (·.children)) (b := [[], [0], [1], [], [2, 3]]) (by decide +kernel)
  exact ⟨functions, h, hchildren, lower_formsTree h⟩

end ScopeIR
