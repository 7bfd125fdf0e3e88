import Mathlib.Data.List.Forall2
import ScopeIR.Dump
import ScopeIR.Proofs.Frames
import ScopeIR.Proofs.Outcomes
import ScopeIR.Proofs.Reachability
import ScopeIR.Stats

/-! Functions that correspond. One mirrors the other if they are the same but for their values,
which are related one by one, and for locations of parameters and blocks, which the mirror has
not. Where related values look the same, the functions do. -/
namespace ScopeIR

variable {R S : Value → Value → Prop} {count : Nat} {file : String}

/-- In a function of so many blocks, the second instruction is the first one with other
values. -/
inductive Instruction.Mirrors (R : Value → Value → Prop) (count : Nat) :
    Instruction → Instruction → Prop
  | call {loc : Location} {dest : Id} {callee : FunctionDefinition}
      {receiver receiver' : Option Value} {operands : List (Option Value)} {values : List Value}
      (received : Option.Rel R receiver receiver')
      (taken : List.Forall₂ (fun operand value => ∃ v, operand = some v ∧ R v value) operands
        values) :
      Mirrors R count (.call loc dest receiver callee operands)
        (.call loc dest receiver' callee (values.map some))
  | ret {loc : Location} {v value : Value} (returned : R v value) :
      Mirrors R count (.ret loc (some v)) (.ret loc (some value))
  | branch {loc : Location} {target : BlockLink} {j : Nat} (labelled : target.index = j)
      (inside : j < count) :
      Mirrors R count (.branch loc (some target)) (.branch loc (some (.own j)))
  | scope {loc : Location} {id : Id} : Mirrors R count (.scope loc id) (.scope loc id)

structure Block.Mirrors (R : Value → Value → Prop) (count : Nat) (block block' : Block) :
    Prop where
  index : block'.index = block.index
  scope : block'.scope = block.scope
  location : block'.location = {}
  instructions : List.Forall₂ (Instruction.Mirrors R count) block.instructions
    block'.instructions

/-- The blocks of both functions stand at the positions that they are labelled with. -/
structure Function.Mirrors (R : Value → Value → Prop) (file : String) (f f' : Function) :
    Prop where
  indexes : ∀ (i : Nat) (block : Block), f.blocks[i]? = some block → block.index = i
  file : f'.file = file
  definition : f'.definition = f.definition
  parameters : f'.parameters = f.parameters.map fun p => { p with location := {} }
  blocks : List.Forall₂ (Block.Mirrors R f.blocks.length) f.blocks f'.blocks
  closures : List.Forall₂ (fun closure closure' => R (.func closure.1 closure.2)
    (.func closure'.1 closure'.2)) f.closures f'.closures

namespace Instruction

variable {x x' : Instruction} {v : Value}

theorem mem_values_call {loc : Location} {dest : Id} {receiver : Option Value}
    {callee : FunctionDefinition} {operands : List (Option Value)} :
    v ∈ (call loc dest receiver callee operands).values ↔
      receiver = some v ∨ some v ∈ operands := by
  simp [values, List.mem_filterMap, eq_comm]

theorem Mirrors.imp (h : x.Mirrors R count x') (hs : ∀ v ∈ x.values, ∀ v', R v v' → S v v') :
    x.Mirrors S count x' := by
  cases h with
  | call received taken =>
    refine .call ?_ ?_
    · cases received with
      | none => exact .none
      | some h => exact .some (hs _ (mem_values_call.mpr (.inl rfl)) _ h)
    · refine List.Forall₂.imp (fun operand value h => ?_)
        ((List.forall₂_and_left _ _).mpr ⟨fun operand ho => ho, taken⟩)
      obtain ⟨ho, v, rfl, hv⟩ := h
      exact ⟨v, rfl, hs v (mem_values_call.mpr (.inr ho)) value hv⟩
  | ret returned => exact .ret (hs _ (List.mem_singleton_self _) _ returned)
  | branch labelled inside => exact .branch labelled inside
  | scope => exact .scope

theorem Mirrors.exists_of_mem (h : x.Mirrors R count x') (hv : v ∈ x.values) :
    ∃ v', R v v' := by
  cases h with
  | call received taken =>
    rcases mem_values_call.mp hv with rfl | hv
    · cases received with
      | some h => exact ⟨_, h⟩
    · obtain ⟨value, -, v', hv', h⟩ := exists_of_forall₂_of_mem taken.flip hv
      cases hv'
      exact ⟨value, h⟩
  | ret returned =>
    cases List.mem_singleton.mp hv
    exact ⟨_, returned⟩
  | branch => cases hv
  | scope => cases hv

/-- Nothing is missing, and branches lead to labels below a bound. -/
def Whole (count : Nat) : Instruction → Prop
  | .call _ _ _ _ operands => none ∉ operands
  | .ret _ value => value.isSome
  | .branch _ target => ∃ link j, target = some link ∧ link.index = (j : Nat) ∧ j < count
  | .scope .. => True

theorem Whole.exists_mirrors (h : x.Whole count) (hr : ∀ v ∈ x.values, ∃ v', R v v') :
    ∃ x', x.Mirrors R count x' := by
  cases x with
  | call loc dest receiver callee operands =>
    have hreceiver : ∃ receiver', Option.Rel R receiver receiver' := by
      cases receiver with
      | none => exact ⟨none, .none⟩
      | some v =>
        obtain ⟨v', hv'⟩ := hr v (mem_values_call.mpr (.inl rfl))
        exact ⟨some v', .some hv'⟩
    have hoperands : ∃ values, List.Forall₂
        (fun operand value => ∃ v, operand = some v ∧ R v value) operands values := by
      refine exists_forall₂ fun operand ho => ?_
      cases operand with
      | none => exact absurd ho h
      | some v =>
        obtain ⟨v', hv'⟩ := hr v (mem_values_call.mpr (.inr ho))
        exact ⟨v', v, rfl, hv'⟩
    obtain ⟨receiver', hreceiver⟩ := hreceiver
    obtain ⟨values, hoperands⟩ := hoperands
    exact ⟨_, .call hreceiver hoperands⟩
  | ret loc value =>
    obtain ⟨v, rfl⟩ := Option.isSome_iff_exists.mp h
    obtain ⟨v', hv'⟩ := hr v (List.mem_singleton_self v)
    exact ⟨_, .ret hv'⟩
  | branch loc target =>
    obtain ⟨link, j, rfl, hlink, hj⟩ := h
    exact ⟨_, .branch hlink hj⟩
  | scope loc id => exact ⟨_, .scope⟩

end Instruction

namespace Function

variable {f f' : Function} {v : Value}

def values (f : Function) : List Value :=
  f.code.flatMap Instruction.values ++ f.closures.map fun closure => .func closure.1 closure.2

structure Whole (f : Function) : Prop where
  indexes : ∀ (i : Nat) (block : Block), f.blocks[i]? = some block → block.index = i
  code : ∀ x ∈ f.code, x.Whole f.blocks.length

theorem mem_values_of_mem {block : Block} {x : Instruction} (hb : block ∈ f.blocks)
    (hx : x ∈ block.instructions) (hv : v ∈ x.values) : v ∈ f.values :=
  List.mem_append_left _
    (List.mem_flatMap.mpr ⟨x, List.mem_flatMap.mpr ⟨block, hb, hx⟩, hv⟩)

theorem mem_values_of_closure {closure : Id × Option FunctionLink} (hc : closure ∈ f.closures) :
    .func closure.1 closure.2 ∈ f.values :=
  List.mem_append_right _ (List.mem_map_of_mem hc)

theorem Mirrors.imp (h : f.Mirrors R file f') (hs : ∀ v ∈ f.values, ∀ v', R v v' → S v v') :
    f.Mirrors S file f' := by
  refine ⟨h.indexes, h.file, h.definition, h.parameters, ?_, ?_⟩
  · refine List.Forall₂.imp (fun block block' hb => ?_)
      ((List.forall₂_and_left _ _).mpr ⟨fun block hb => hb, h.blocks⟩)
    obtain ⟨hmem, hb⟩ := hb
    refine ⟨hb.index, hb.scope, hb.location, List.Forall₂.imp (fun x x' hx => ?_)
      ((List.forall₂_and_left _ _).mpr ⟨fun x hx => hx, hb.instructions⟩)⟩
    exact hx.2.imp fun v hv => hs v (mem_values_of_mem hmem hx.1 hv)
  · refine List.Forall₂.imp (fun closure closure' hc => ?_)
      ((List.forall₂_and_left _ _).mpr ⟨fun closure hc => hc, h.closures⟩)
    exact hs _ (mem_values_of_closure hc.1) _ hc.2

theorem Mirrors.exists_of_mem (h : f.Mirrors R file f') (hv : v ∈ f.values) : ∃ v', R v v' := by
  rcases List.mem_append.mp hv with hv | hv
  · obtain ⟨x, hx, hv⟩ := List.mem_flatMap.mp hv
    obtain ⟨block, hb, hx⟩ := List.mem_flatMap.mp hx
    obtain ⟨block', -, hblock⟩ := exists_of_forall₂_of_mem h.blocks.flip hb
    obtain ⟨x', -, hx'⟩ := exists_of_forall₂_of_mem hblock.instructions.flip hx
    exact hx'.exists_of_mem hv
  · obtain ⟨closure, hc, rfl⟩ := List.mem_map.mp hv
    obtain ⟨closure', -, h⟩ := exists_of_forall₂_of_mem h.closures.flip hc
    exact ⟨_, h⟩

/-- A whole function has a mirror if its values have. -/
theorem Whole.exists_mirrors (h : f.Whole) (file : String)
    (hr : ∀ v ∈ f.code.flatMap Instruction.values, ∃ v', R v v')
    (hc : ∀ closure ∈ f.closures, ∃ closure' : Id × Option FunctionLink,
      R (.func closure.1 closure.2) (.func closure'.1 closure'.2)) :
    ∃ f', f.Mirrors R file f' := by
  have hblocks : ∃ blocks, List.Forall₂ (Block.Mirrors R f.blocks.length) f.blocks blocks := by
    refine exists_forall₂ fun block hb => ?_
    have hcode : ∃ code, List.Forall₂ (Instruction.Mirrors R f.blocks.length)
        block.instructions code := by
      refine exists_forall₂ fun x hx => ?_
      have hmem : x ∈ f.code := List.mem_flatMap.mpr ⟨block, hb, hx⟩
      exact (h.code x hmem).exists_mirrors fun v hv => hr v (List.mem_flatMap.mpr ⟨x, hmem, hv⟩)
    obtain ⟨code, hcode⟩ := hcode
    exact ⟨⟨block.index, block.scope, code, {}⟩, rfl, rfl, rfl, hcode⟩
  obtain ⟨blocks, hblocks⟩ := hblocks
  obtain ⟨closures, hclosures⟩ := exists_forall₂ hc
  exact ⟨⟨file, f.definition, _, blocks, closures⟩, h.indexes, rfl, rfl, rfl, hblocks, hclosures⟩

end Function

/-- The two are printed alike and counted alike. -/
structure Value.LooksLike (v v' : Value) : Prop where
  text : v'.text = v.text
  counted : Stats.isConstant (some v') = Stats.isConstant (some v)

theorem map_eq_of_forall₂ {α β γ : Type} {f : α → γ} {g : β → γ} {as : List α} {bs : List β}
    (h : List.Forall₂ (fun a b => g b = f a) as bs) : bs.map g = as.map f := by
  induction h with
  | nil => rfl
  | cons h _ ih => rw [List.map_cons, List.map_cons, h, ih]

theorem mapM_eq_of_forall₂ {α β γ : Type} {f : α → Outcome γ} {g : β → Outcome γ} {as : List α}
    {bs : List β} (h : List.Forall₂ (fun a b => g b = f a) as bs) : bs.mapM g = as.mapM f := by
  induction h with
  | nil => rfl
  | cons h _ ih => rw [List.mapM_cons, List.mapM_cons, h, ih]

namespace Instruction

variable {x x' : Instruction}

theorem Whole.exists_line (h : x.Whole count) : ∃ line, x.line = .ok line := by
  cases x with
  | branch loc target =>
    obtain ⟨link, j, rfl, -, -⟩ := h
    exact ⟨_, rfl⟩
  | _ => exact ⟨_, rfl⟩

theorem Mirrors.line (h : x.Mirrors Value.LooksLike count x') : x'.line = x.line := by
  cases h with
  | @call loc dest callee receiver receiver' operands values received taken =>
    have htexts : (values.map some).map Value.textOrNil = operands.map Value.textOrNil := by
      rw [List.map_map]
      refine map_eq_of_forall₂ (taken.imp fun operand value h => ?_)
      obtain ⟨v, rfl, hv⟩ := h
      exact hv.text
    rw [Instruction.line, Instruction.text, htexts]
    rfl
  | ret returned =>
    rw [Instruction.line, Instruction.text, Value.textOrNil, returned.text]
    rfl
  | branch labelled inside =>
    rw [Instruction.line, Instruction.line, Instruction.text, Instruction.text, labelled]
    rfl
  | scope => rfl

end Instruction

theorem Block.Mirrors.dump {block block' : Block} (h : block.Mirrors Value.LooksLike count block') :
    block'.dump = block.dump := by
  have hlines := mapM_eq_of_forall₂ (h.instructions.imp fun x x' hx => hx.line)
  rw [Block.dump, Block.dump, hlines, h.index, h.scope]

namespace Function

variable {f f' : Function} {functions functions' : List Function}

theorem Whole.exists_block_dump (h : f.Whole) {block : Block} (hb : block ∈ f.blocks) :
    ∃ text, block.dump = .ok text := by
  obtain ⟨lines, hlines⟩ := exists_forall₂ (R := fun x line => Instruction.line x = .ok line)
    fun x hx => (h.code x (List.mem_flatMap.mpr ⟨block, hb, hx⟩)).exists_line
  rw [Block.dump, Outcome.mapM_eq_ok.mpr hlines]
  exact ⟨_, rfl⟩

theorem Whole.exists_dump (h : f.Whole) : ∃ text, f.dump = .ok text := by
  obtain ⟨texts, htexts⟩ := exists_forall₂ fun block hb => h.exists_block_dump hb
  rw [Function.dump, Outcome.mapM_eq_ok.mpr htexts]
  exact ⟨_, rfl⟩

theorem exists_dumpAll (h : ∀ f ∈ functions, f.Whole) : ∃ text, dumpAll functions = .ok text := by
  obtain ⟨texts, htexts⟩ := exists_forall₂ fun f hf => (h f hf).exists_dump
  rw [dumpAll, Outcome.mapM_eq_ok.mpr htexts]
  exact ⟨_, rfl⟩

theorem Mirrors.dump (h : f.Mirrors Value.LooksLike file f') : f'.dump = f.dump := by
  have hblocks := mapM_eq_of_forall₂ (h.blocks.imp fun block block' hb => hb.dump)
  have hparameters : f'.parameters.map Parameter.text = f.parameters.map Parameter.text := by
    rw [h.parameters, List.map_map]
    rfl
  rw [Function.dump, Function.dump, hblocks, hparameters, h.definition]

/-- Functions whose values look alike have one text. -/
theorem dumpAll_of_mirrors
    (h : List.Forall₂ (Function.Mirrors Value.LooksLike file) functions functions')
    (hw : ∀ f ∈ functions, f.Whole) :
    ∃ text, dumpAll functions' = .ok text ∧ dumpAll functions = .ok text := by
  obtain ⟨text, htext⟩ := exists_dumpAll hw
  have hdumps := mapM_eq_of_forall₂ (h.imp fun f f' hf => hf.dump)
  refine ⟨text, ?_, htext⟩
  rw [dumpAll, hdumps]
  exact htext

end Function

theorem Instruction.Mirrors.counted {x x' : Instruction}
    (h : x.Mirrors Value.LooksLike count x') : Stats.callee? x' = Stats.callee? x ∧
      (Stats.operands x').map Stats.isConstant = (Stats.operands x).map Stats.isConstant := by
  cases h with
  | call received taken =>
    refine ⟨rfl, ?_⟩
    rw [Stats.operands, List.map_map]
    refine map_eq_of_forall₂ (taken.imp fun operand value h => ?_)
    obtain ⟨v, rfl, hv⟩ := h
    exact hv.counted
  | _ => exact ⟨rfl, rfl⟩

theorem Function.Mirrors.code {f f' : Function} (h : f.Mirrors R file f') :
    List.Forall₂ (Instruction.Mirrors R f.blocks.length) f.code f'.code :=
  List.rel_flatMap h.blocks fun _ _ hb => hb.instructions

theorem Function.Mirrors.stats {f f' : Function} (h : f.Mirrors Value.LooksLike file f') :
    Stats.ofFunction f' = Stats.ofFunction f := by
  have hcode := h.code
  have hcallees : f'.code.filterMap Stats.callee? = f.code.filterMap Stats.callee? := by
    have hmap := map_eq_of_forall₂ (hcode.imp fun x x' hx => hx.counted.1)
    simpa [List.filterMap_map] using congrArg (List.filterMap id) hmap
  have hconstants : (f'.code.flatMap Stats.operands).countP Stats.isConstant =
      (f.code.flatMap Stats.operands).countP Stats.isConstant := by
    have hmap := map_eq_of_forall₂ (hcode.imp fun x x' hx => hx.counted.2)
    have hflat := congrArg (fun lists => lists.flatten.countP id) hmap
    simpa [List.countP_flatten, List.countP_map, List.countP_flatMap, Function.comp_def] using hflat
  have hparameters : f'.parameters.length = f.parameters.length := by
    rw [h.parameters, List.length_map]
  unfold Function.code at hcode hcallees hconstants
  rw [Stats.ofFunction, Stats.ofFunction, hcallees, hconstants, hparameters, h.definition,
    hcode.length_eq, h.blocks.length_eq, h.closures.length_eq]

theorem Instruction.Mirrors.label? {x x' : Instruction} (h : x.Mirrors R count x') :
    x'.label? = x.label? := by
  cases h with
  | branch labelled inside => exact congrArg some labelled.symm
  | _ => rfl

theorem Block.Mirrors.label? {block block' : Block} (h : block.Mirrors R count block') :
    block'.label? = block.label? := by
  have hlabels := map_eq_of_forall₂ (h.instructions.imp fun x x' hx => hx.label?)
  have hlast := congrArg (fun labels => labels.getLast?.bind id) hlabels
  simp only [List.getLast?_map, Option.bind_map] at hlast
  rw [Block.label?_eq, Block.label?_eq]
  exact hlast

theorem unvisited_congr (heap : (n : Nat) → Heap (Fin n)) {n n' : Nat} (hn : n' = n)
    {label? : Fin n → Option Int} {label?' : Fin n' → Option Int}
    (h : ∀ i (hi : i < n) (hi' : i < n'), label?' ⟨i, hi'⟩ = label? ⟨i, hi⟩) :
    unvisited (heap n') label?' = unvisited (heap n) label? := by
  subst hn
  exact congrArg (unvisited (heap n')) (funext fun i => h i i.isLt i.isLt)

theorem Function.Mirrors.unreachable {f f' : Function} (h : f.Mirrors R file f') :
    f'.unreachable = f.unreachable := by
  have hlabels : f'.blocks.map Block.label? = f.blocks.map Block.label? :=
    map_eq_of_forall₂ (h.blocks.imp fun block block' hb => hb.label?)
  refine unvisited_congr (fun _ => .least fun i j => i < j) h.blocks.length_eq.symm
    fun i hi hi' => ?_
  have hlabel := congrArg (·[i]?) hlabels
  simpa [hi, hi'] using hlabel

end ScopeIR
