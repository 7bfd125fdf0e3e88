import Mathlib.Data.List.Forall2
import Mathlib.Data.Nat.Find
import ScopeIR.Proofs.Programs
import ScopeIR.Proofs.Reachability

/-! Control flow of the output. Blocks follow one another up to the first that returns, and
what comes after that one is out of reach. -/
namespace ScopeIR

variable {loose returning : Prop}

namespace Function

/-- The blocks in order: the last one returns, each other goes on to the next, or returns if
`returning`. -/
def Linear (returning : Prop) (f : Function) : Prop :=
  ∃ last older, f.blocks = (last :: older).reverse ∧ last.index = older.length ∧ last.Returns ∧
    Sealed returning older

end Function

theorem Frame.Shaped.finish {f : Frame} (h : f.Shaped True) (ht : Sealed returning f.blocks.tail)
    (file : String) (loc : Location) : (f.finish file loc).Linear returning := by
  by_cases ho : f.isOpen
  · obtain ⟨block, older, hb, hi, hn, -⟩ := h.of_isOpen ho
    refine ⟨block.add [.ret loc (some .null)], older, ?_, hi,
      ⟨loc, some .null, block.instructions, rfl, hn⟩, by simpa [hb] using ht⟩
    simp [Frame.finish, ho, Frame.extend, hb]
  · obtain ⟨block, older, hb, hi, hn, -⟩ := h
    have hr : block.Returns := by
      rcases hn with hn | ⟨-, hr⟩
      · simp [Frame.isOpen, hb, Block.isTerminated_of_straight hn] at ho
      · exact hr
    exact ⟨block, older, by simp [Frame.finish, ho, hb], hi, hr, by simpa [hb] using ht⟩

structure ComesFrom (source : FunctionSource) (f : Function) : Prop where
  parameters : f.parameters.tail.map (fun p => (p.name, p.location)) =
    source.parameters.map fun node => (node.parameterName, node.location)
  linear : f.Linear True
  settled : source.returns = false → f.Linear False

theorem parametersFrom_map (n : Nat) (params : List Node) :
    (parametersFrom n params).map (fun p => (p.name, p.location)) =
      params.map fun node => (node.parameterName, node.location) := by
  induction params generalizing n with
  | nil => rfl
  | cons node rest ih => simp [parametersFrom, ih]

theorem Run.comesFrom_finish {s s₁ : Compilation} {w : Work} {definition : FunctionDefinition}
    {params body : List Node} {loc : Location} {before : List Block}
    (h : Run loose ⟨s.enter definition params loc before, []⟩ w ⟨s₁, []⟩)
    (hbefore : Sealed True before)
    (hs : Node.anyReturns body = false → Sealed False s₁.frame.blocks.tail) (file : String) :
    ComesFrom ⟨params, body⟩ (s₁.frame.finish file loc) := by
  have hshape := (h.shaped (fun _ => trivial) (s.shaped_enter definition params loc hbefore)).frame
  refine ⟨?_, hshape.finish hshape.tail file loc, fun hr => hshape.finish (hs hr) file loc⟩
  show (s₁.frame.parameters.tail.map fun p => (p.name, p.location)) = _
  rw [h.extends.parameters]
  exact parametersFrom_map _ params

/-- The functions that a run adds to the output are those of its work, in order. -/
theorem Run.comesFrom {d d' : Draft} {w : Work} (h : Run loose d w d') :
    ∃ new, d'.state.functions = d.state.functions ++ new ∧
      List.Forall₂ ComesFrom w.functions new := by
  induction h with
  | trans _ _ ih ih₁ =>
    obtain ⟨new, hn, hc⟩ := ih
    obtain ⟨new₁, hn₁, hc₁⟩ := ih₁
    exact ⟨new ++ new₁, by rw [hn₁, hn, List.append_assoc], List.rel_append hc hc₁⟩
  | object _ _ ih => exact ih
  | block _ _ _ _ _ ih => exact ih
  | @function s s₁ w _ code definition params body loc _ settled inner ih =>
    obtain ⟨new, hn, hc⟩ := ih
    refine ⟨new ++ [s₁.frame.finish s₁.file loc], ?_, List.rel_append hc (.cons ?_ .nil)⟩
    · show s₁.functions ++ _ = s.functions ++ _
      rw [show s₁.functions = s.functions ++ new from hn, List.append_assoc]
    · exact inner.comesFrom_finish trivial settled s₁.file
  | _ => exact ⟨[], (List.append_nil _).symm, .nil⟩

namespace Sealed

theorem getElem? {blocks : List Block} (h : Sealed returning blocks) {i : Nat} {block : Block}
    (hi : blocks.reverse[i]? = some block) :
    block.index = i ∧ (block.FallsThrough i ∨ returning ∧ block.Returns) := by
  induction blocks with
  | nil => simp at hi
  | cons newest older ih =>
    obtain ⟨hn, hc, hs⟩ := h
    rw [List.reverse_cons, List.getElem?_append] at hi
    split at hi
    · exact ih hs hi
    · rename_i hlt
      obtain ⟨hz, rfl⟩ : i - older.reverse.length = 0 ∧ newest = block := by
        simpa [List.getElem?_singleton] using hi
      obtain rfl : i = older.length := by
        rw [List.length_reverse] at hlt hz
        omega
      exact ⟨hn, hc⟩

end Sealed

namespace Function

variable {f : Function}

theorem Linear.getElem? (h : f.Linear returning) {i : Nat} {block : Block}
    (hi : f.blocks[i]? = some block) :
    block.index = i ∧ (i + 1 = f.blocks.length ∧ block.Returns ∨
      i + 1 < f.blocks.length ∧ (block.FallsThrough i ∨ returning ∧ block.Returns)) := by
  obtain ⟨last, older, hb, hn, hr, hs⟩ := h
  have hlen : f.blocks.length = older.length + 1 := by simp [hb]
  rw [hb, List.reverse_cons, List.getElem?_append] at hi
  rw [hlen]
  split at hi
  · rename_i hlt
    rw [List.length_reverse] at hlt
    obtain ⟨hx, hc⟩ := hs.getElem? hi
    exact ⟨hx, .inr ⟨by omega, hc⟩⟩
  · rename_i hlt
    obtain ⟨hz, rfl⟩ : i - older.reverse.length = 0 ∧ last = block := by
      simpa [List.getElem?_singleton] using hi
    rw [List.length_reverse] at hlt hz
    obtain rfl : i = older.length := by omega
    exact ⟨hn, .inl ⟨rfl, hr⟩⟩

/-- The position is that of the first block that returns. -/
def FirstReturn (f : Function) (k : Nat) : Prop :=
  (∃ block, f.blocks[k]? = some block ∧ block.Returns) ∧
    ∀ j < k, ∀ block, f.blocks[j]? = some block → ¬ block.Returns

theorem Linear.exists_firstReturn (h : f.Linear returning) : ∃ k, f.FirstReturn k := by
  classical
  have hlast : ∃ k : Nat, ∃ block : Block, f.blocks[k]? = some block ∧ block.Returns := by
    obtain ⟨last, older, hb, -, hr, -⟩ := h
    exact ⟨older.length, last, by simp [hb], hr⟩
  refine ⟨Nat.find hlast, Nat.find_spec hlast, fun j hj block hblock hr => ?_⟩
  exact Nat.find_min hlast hj ⟨block, hblock, hr⟩

end Function

namespace Block

theorem Returns.label? {block : Block} (h : block.Returns) : block.label? = none := by
  obtain ⟨loc, value, h⟩ := h
  simp [Block.label?, h.terminator? rfl, Instruction.label?]

theorem FallsThrough.label? {block : Block} {position : Nat} (h : block.FallsThrough position) :
    block.label? = some ((position + 1 : Nat) : Int) := by
  obtain ⟨loc, h⟩ := h
  simp [Block.label?, h.terminator? rfl, Instruction.label?, BlockLink.own]

end Block

namespace Function

variable {f : Function} {k : Nat}

theorem FirstReturn.lt_length (hk : f.FirstReturn k) : k < f.blocks.length := by
  obtain ⟨⟨block, hb, -⟩, -⟩ := hk
  exact (List.getElem?_eq_some_iff.mp hb).1

theorem FirstReturn.fallsThrough (hk : f.FirstReturn k) (h : f.Linear True) {j : Nat}
    (hj : j < k) : ∃ block, f.blocks[j]? = some block ∧ block.FallsThrough j := by
  have hb := List.getElem?_eq_getElem (Nat.lt_trans hj hk.lt_length)
  have hr := hk.2 j hj _ hb
  rcases (h.getElem? hb).2 with ⟨-, hc⟩ | ⟨-, hc | ⟨-, hc⟩⟩
  · exact absurd hc hr
  · exact ⟨_, hb, hc⟩
  · exact absurd hc hr

/-- Each block up to the first return is reached from the one before it. -/
theorem FirstReturn.reaches_iff_le (hk : f.FirstReturn k) (h : f.Linear True) {i : Nat} :
    f.Reaches i ↔ i ≤ k := by
  have hlt := hk.lt_length
  constructor
  · intro hpath
    induction hpath with
    | refl => exact Nat.zero_le k
    | @tail i j _ hbranch ih =>
      obtain ⟨block, hblock, hlabel, -⟩ := branches_iff.mp hbranch
      rcases Nat.lt_or_eq_of_le ih with hi | rfl
      · obtain ⟨block', hblock', hc⟩ := hk.fallsThrough h hi
        obtain rfl : block = block' := Option.some.inj (hblock.symm.trans hblock')
        rw [hc.label?, Option.some.injEq, Int.ofNat_inj] at hlabel
        omega
      · obtain ⟨⟨block', hblock', hr⟩, -⟩ := hk
        obtain rfl : block = block' := Option.some.inj (hblock.symm.trans hblock')
        rw [hr.label?] at hlabel
        cases hlabel
  · intro hi
    induction i with
    | zero => exact .refl
    | succ i ih =>
      obtain ⟨block, hblock, hc⟩ := hk.fallsThrough h (Nat.lt_of_succ_le hi)
      exact (ih (Nat.le_of_succ_le hi)).tail
        (branches_iff.mpr ⟨block, hblock, hc.label?, Nat.lt_of_le_of_lt hi hlt⟩)

/-- Out of reach are the blocks after the first that returns. -/
theorem FirstReturn.unreachable_eq (hk : f.FirstReturn k) (h : f.Linear True) :
    f.unreachable = List.range' (k + 1) (f.blocks.length - 1 - k) := by
  have hlt := hk.lt_length
  refine (pairwise_unreachableBy _).eq_of_mem_iff List.pairwise_lt_range' fun i => ?_
  rw [mem_unreachableBy, hk.reaches_iff_le h, List.mem_range'_1]
  omega

theorem Linear.unreachable_eq_nil (h : f.Linear True) (hs : f.Linear False) :
    f.unreachable = [] := by
  obtain ⟨k, hk⟩ := h.exists_firstReturn
  obtain ⟨block, hb, hr⟩ := hk.1
  have hlast : k + 1 = f.blocks.length := by
    rcases (hs.getElem? hb).2 with ⟨hlast, -⟩ | ⟨-, hc | ⟨hf, -⟩⟩
    · exact hlast
    · obtain ⟨_, hc⟩ := hc
      obtain ⟨_, _, hr⟩ := hr
      cases (hc.terminator? rfl).symm.trans (hr.terminator? rfl)
    · exact hf.elim
  rw [hk.unreachable_eq h, ← hlast, Nat.add_sub_cancel, Nat.sub_self]
  rfl

end Function

theorem Prologue.straight {loc : Location} {n : Nat} {hosted : List Constant}
    {code : List Instruction} (h : Prologue loc n hosted code) : Straight code := by
  induction h with
  | scope => exact List.forall_mem_singleton.mpr rfl
  | host name _ ih => exact ih
  | seed name value _ _ ih => exact ih.append (straight_apply _ _ _ _)

theorem Seeded.sealed {file : String} {loc : Location} {hosted : List Constant}
    {s : Compilation} {code : List Instruction} (h : Seeded file loc hosted s code) :
    Sealed returning [⟨0, 0, code ++ [.branch loc (some (.own 1))], loc⟩] :=
  ⟨rfl, .inl ⟨loc, code, rfl, h.prologue.straight⟩, trivial⟩

theorem ProgramRun.comesFrom {file : String} {hosts : List String} {node : Node}
    {functions : List Function} {result : Compilation}
    (p : ProgramRun loose file hosts node functions result) :
    List.Forall₂ ComesFrom node.programFunctions functions := by
  obtain ⟨new, hn, hc⟩ := p.run.comesFrom
  have hstart : (p.seeded.enterMain file p.loc p.prologue).functions = [] := p.seeds.functions
  have hfunctions : p.final.functions = new := by simpa [hstart] using hn
  have hmain : ComesFrom ⟨[], p.body⟩ (p.final.frame.finish file p.loc) := by
    refine p.run.comesFrom_finish p.seeds.sealed (fun hr => ?_) file
    exact (p.run.shaped (fun h => absurd h (by simp [Node.allWork, hr]))
      (Compilation.shaped_enter _ _ _ _ p.seeds.sealed)).frame.tail
  have hall : List.Forall₂ ComesFrom (_ ++ [⟨[], p.body⟩]) (_ ++ [_]) :=
    List.rel_append hc (.cons hmain .nil)
  rwa [← hfunctions, ← p.output, ← p.source] at hall

theorem linear_of_mem {sources : List FunctionSource} {functions : List Function}
    (h : List.Forall₂ ComesFrom sources functions) : ∀ f ∈ functions, f.Linear True := by
  induction h with
  | nil => simp
  | cons hf _ ih => exact List.forall_mem_cons.mpr ⟨hf.linear, ih⟩

/-- Control flow of a function that comes out of a function of the source. -/
structure FlowsInOrder (source : FunctionSource) (f : Function) : Prop where
  parameters : f.parameters.tail.map (fun p => (p.name, p.location)) =
    source.parameters.map fun node => (node.parameterName, node.location)
  blocks : ∀ i block, f.blocks[i]? = some block →
    block.Returns ∨ i + 1 < f.blocks.length ∧ block.FallsThrough i
  unreachable : ∃ k, f.FirstReturn k ∧
    f.unreachable = List.range' (k + 1) (f.blocks.length - 1 - k)
  settled : source.returns = false → f.unreachable = []

theorem ComesFrom.flowsInOrder {source : FunctionSource} {f : Function} (h : ComesFrom source f) :
    FlowsInOrder source f where
  parameters := h.parameters
  blocks i block hb := by
    rcases (h.linear.getElem? hb).2 with ⟨-, hr⟩ | ⟨hlt, hc | ⟨-, hr⟩⟩
    · exact .inl hr
    · exact .inr ⟨hlt, hc⟩
    · exact .inl hr
  unreachable := by
    obtain ⟨k, hk⟩ := h.linear.exists_firstReturn
    exact ⟨k, hk, hk.unreachable_eq h.linear⟩
  settled hr := h.linear.unreachable_eq_nil (h.settled hr)

/-- Each function of the source becomes one function of the output, in which control goes
from block to block up to the first return and everything after that is out of reach. -/
theorem lower_flowsInOrder {file : String} {hosts : List String} {node : Node}
    {functions : List Function} (h : (lower file hosts node).1 = .ok functions) :
    List.Forall₂ FlowsInOrder node.programFunctions functions := by
  obtain ⟨_, ⟨p⟩⟩ := exists_programRun h
  exact p.comesFrom.imp fun _ _ hc => hc.flowsInOrder

/-- `function g(a) { return a; b; } { g(); }` -/
def earlyReturn : Node :=
  .program {} "script" [
    .functionDeclaration {} (.identifier {} "g") [.identifier {} "a"] (.blockStatement {} [
      .returnStatement {} (.identifier {} "a"),
      .expressionStatement {} (.identifier {} "b")]),
    .blockStatement {} [.expressionStatement {} (.call {} (.identifier {} "g") [] false)]]

theorem lower_earlyReturn_flowsInOrder : ∃ functions,
    (lower "f.js" [] earlyReturn).1 = .ok functions ∧
      functions.map (fun f => (f.blocks.length, f.unreachable)) = [(2, [1]), (4, [])] ∧
      List.Forall₂ FlowsInOrder earlyReturn.programFunctions functions := by
  obtain ⟨functions, h, hu⟩ := Outcome.exists_ok (x := (lower "f.js" [] earlyReturn).1)
    (f := List.map fun f => (f.blocks.length, f.unreachable)) (b := [(2, [1]), (4, [])])
    (by decide +kernel)
  exact ⟨functions, h, hu, lower_flowsInOrder h⟩

end ScopeIR
