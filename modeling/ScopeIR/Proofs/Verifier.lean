import Mathlib.Data.List.Basic
import ScopeIR.Proofs.Bits
import ScopeIR.Proofs.Outcomes
import ScopeIR.Proofs.Run
import ScopeIR.Verifier

/-! What the verifier accepts: ids that are new one after the other, and blocks that are
labelled by position, end in their only terminator and branch inside their function. -/
namespace ScopeIR

def Bits.addAll (s : Bits) (ids : List Id) : Bits := ids.foldl (fun s id => (s.add id).2) s

theorem Bits.has_addAll (s : Bits) (ids : List Id) (x : Id) :
    (s.addAll ids).has x = (s.has x || decide (0 ≤ x ∧ x ∈ ids)) := by
  induction ids generalizing s with
  | nil => simp [addAll]
  | cons id rest ih =>
    rw [addAll, List.foldl_cons, ← addAll, ih, has_add, Bool.or_assoc, ← Bool.decide_or]
    congr 2
    grind

/-- Ids that may be defined after others: not negative, not defined before and not twice. -/
structure FreshIds (ids : Bits) (new : List Id) : Prop where
  nonneg : ∀ x ∈ new, 0 ≤ x
  unused : ∀ x ∈ new, ids.has x = false
  nodup : new.Nodup

theorem freshIds_nil (ids : Bits) : FreshIds ids [] := ⟨by simp, by simp, by simp⟩

theorem freshIds_append {ids : Bits} {new more : List Id} :
    FreshIds ids (new ++ more) ↔ FreshIds ids new ∧ FreshIds (ids.addAll new) more := by
  constructor
  · rintro ⟨hn, hu, hd⟩
    rw [List.nodup_append] at hd
    refine ⟨⟨fun x hx => hn x (by simp [hx]), fun x hx => hu x (by simp [hx]), hd.1⟩,
      fun x hx => hn x (by simp [hx]), fun x hx => ?_, hd.2.1⟩
    rw [Bits.has_addAll, hu x (by simp [hx]), Bool.false_or, decide_eq_false_iff_not]
    exact fun h => hd.2.2 x h.2 x hx rfl
  · rintro ⟨⟨hn, hu, hd⟩, hn', hu', hd'⟩
    simp only [Bits.has_addAll, Bool.or_eq_false_iff, decide_eq_false_iff_not] at hu'
    refine ⟨fun x hx => (List.mem_append.mp hx).elim (hn x) (hn' x),
      fun x hx => (List.mem_append.mp hx).elim (hu x) fun h => (hu' x h).1,
      List.nodup_append.mpr ⟨hd, hd', fun x hx y hy hxy => (hu' y hy).2 ⟨hn' y hy, hxy ▸ hx⟩⟩⟩

/-- A branch leads to a block of its function, labelled with its position. -/
def Instruction.Inside (count : Nat) (x : Instruction) : Prop :=
  ∀ loc target, x = .branch loc target → Verifier.staysInside count target = true

def Function.defines (f : Function) : List Id :=
  f.parameters.map (·.id) ++ f.code.filterMap Instruction.dest?

structure Block.WellFormed (count position : Nat) (block : Block) : Prop where
  index : block.index = position
  ends : ∃ last, block.EndsIn last ∧ last.isTerminator = true
  inside : ∀ x ∈ block.instructions, x.Inside count

def Function.WellFormed (f : Function) : Prop :=
  ∀ (i : Nat) (block : Block), f.blocks[i]? = some block → block.WellFormed f.blocks.length i

namespace Verifier

@[simp] theorem has_noIds (id : Id) : noIds.has id = false := Bits.has_ofSize 256 id

/-- The ids are accepted one after the other and added to those before. -/
def Accepts (ids : Bits) (new : List Id) (ids' : Bits) : Prop :=
  FreshIds ids new ∧ ids.addAll new = ids'

variable {ids ids' : Bits} {count : Nat}

@[simp] theorem accepts_nil : Accepts ids [] ids' ↔ ids = ids' := by
  simp [Accepts, freshIds_nil, Bits.addAll]

theorem accepts_append {new more : List Id} :
    Accepts ids (new ++ more) ids' ↔ ∃ mid, Accepts ids new mid ∧ Accepts mid more ids' := by
  simp [Accepts, freshIds_append, and_assoc, Bits.addAll]

theorem define_eq_ok {id : Id} : define ids id = .ok ids' ↔ Accepts ids [id] ids' := by
  have hfresh : FreshIds ids [id] ↔ 0 ≤ id ∧ ids.has id = false :=
    ⟨fun h => ⟨h.nonneg id (by simp), h.unused id (by simp)⟩,
      fun h => ⟨by simpa using h.1, by simpa using h.2, by simp⟩⟩
  rw [Accepts, hfresh]
  unfold define
  by_cases hneg : id < 0
  · simp [hneg, Outcome.failAt, Int.not_le.mpr hneg]
  · have hadd : (ids.add id).1 = !ids.has id := by simp [Bits.add_fst, Int.not_lt.mp hneg]
    rcases he : ids.add id with ⟨added, more⟩
    simp only [he] at hadd
    cases hmem : ids.has id with
    | true => simp [hneg, hadd, hmem, Outcome.failAt]
    | false => simp [hneg, hadd, hmem, he, Int.not_lt.mp hneg, Bits.addAll]

theorem parameters_eq_ok {ps : List Parameter} :
    parameters ids ps = .ok ids' ↔ Accepts ids (ps.map (·.id)) ids' := by
  induction ps generalizing ids with
  | nil => simp [parameters]
  | cons p rest ih =>
    rw [parameters, Outcome.bind_eq_ok, List.map_cons, ← List.singleton_append, accepts_append]
    simp only [Outcome.within_eq_ok, define_eq_ok, ih]

theorem instruction_eq_ok {x : Instruction} :
    instruction count ids x = .ok ids' ↔ Accepts ids x.dest?.toList ids' ∧ x.Inside count := by
  cases x with
  | call => simp [instruction, define_eq_ok, Instruction.dest?, Instruction.Inside]
  | ret => simp [instruction, Instruction.dest?, Instruction.Inside]
  | scope => simp [instruction, Instruction.dest?, Instruction.Inside]
  | branch loc target =>
    simp only [instruction, Instruction.dest?, Instruction.Inside, Option.toList_none, accepts_nil]
    cases hs : staysInside count target with
    | true => simp [hs]
    | false => simp [hs, Outcome.fail]

def Terminated : List Instruction → Prop
  | [] => True
  | [x] => x.isTerminator = true
  | x :: rest => x.isTerminator = false ∧ Terminated rest

theorem instructions_eq_ok {label : String} {position : Nat} {code : List Instruction} :
    instructions count label position ids code = .ok ids' ↔
      Accepts ids (code.filterMap Instruction.dest?) ids' ∧ (∀ x ∈ code, x.Inside count) ∧
        Terminated code := by
  induction code generalizing ids position with
  | nil => simp [instructions, Terminated]
  | cons x rest ih =>
    have hcons : (x :: rest).filterMap Instruction.dest? =
        x.dest?.toList ++ rest.filterMap Instruction.dest? := by
      cases h : x.dest? <;> simp [h]
    simp only [instructions, Outcome.bind_eq_ok, Outcome.within_eq_ok, instruction_eq_ok, hcons,
      accepts_append, List.forall_mem_cons]
    cases rest with
    | nil =>
      cases ht : x.isTerminator with
      | true => simp [ht, instructions, Terminated]
      | false => simp [ht, Terminated, Outcome.failAt]
    | cons y rest =>
      cases ht : x.isTerminator with
      | true => simp [ht, Terminated, Outcome.failAt]
      | false =>
        simp only [ht, Terminated, ih, Bool.false_and, Bool.not_false, List.isEmpty_cons,
          Bool.and_false, Bool.false_eq_true, if_false, true_and]
        constructor
        · rintro ⟨mid, ⟨ha, hx⟩, hb, hrest, hend⟩
          exact ⟨⟨mid, ha, hb⟩, ⟨hx, hrest⟩, hend⟩
        · rintro ⟨⟨mid, ha, hb⟩, ⟨hx, hrest⟩, hend⟩
          exact ⟨mid, ⟨ha, hx⟩, hb, hrest, hend⟩

theorem terminated_iff {code : List Instruction} (h : code ≠ []) :
    Terminated code ↔
      ∃ last, (∃ straight, code = straight ++ [last] ∧ Straight straight) ∧
        last.isTerminator = true := by
  induction code with
  | nil => exact absurd rfl h
  | cons x rest ih =>
    cases rest with
    | nil => simp [Terminated, List.singleton_eq_append_iff, Straight]
    | cons y rest =>
      rw [Terminated, ih (List.cons_ne_nil _ _)]
      · constructor
        · rintro ⟨hx, last, ⟨straight, hc, hs⟩, ht⟩
          exact ⟨last, ⟨x :: straight, by rw [hc, List.cons_append],
            List.forall_mem_cons.mpr ⟨hx, hs⟩⟩, ht⟩
        · rintro ⟨last, ⟨straight, hc, hs⟩, ht⟩
          cases straight with
          | nil => cases hc
          | cons z straight =>
            obtain ⟨rfl, hrest⟩ := List.cons.inj hc
            exact ⟨hs x List.mem_cons_self, last,
              ⟨straight, hrest, fun z hz => hs z (List.mem_cons_of_mem _ hz)⟩, ht⟩
      · exact List.cons_ne_nil _ _

theorem wellFormed_iff {block : Block} {position : Nat} : block.WellFormed count position ↔
    block.index = position ∧ block.instructions ≠ [] ∧ (∀ x ∈ block.instructions, x.Inside count) ∧
      Terminated block.instructions := by
  constructor
  · rintro ⟨hi, hends, hin⟩
    have hne : block.instructions ≠ [] := by
      obtain ⟨last, ⟨code, hc, -⟩, -⟩ := hends
      simp [hc]
    exact ⟨hi, hne, hin, (terminated_iff hne).mpr hends⟩
  · rintro ⟨hi, hne, hin, ht⟩
    exact ⟨hi, (terminated_iff hne).mp ht, hin⟩

theorem blocks_eq_ok {position : Nat} {bs : List Block} :
    blocks count position ids bs = .ok ids' ↔
      Accepts ids ((bs.flatMap (·.instructions)).filterMap Instruction.dest?) ids' ∧
        ∀ (i : Nat) (block : Block), bs[i]? = some block →
          block.WellFormed count (position + i) := by
  induction bs generalizing ids position with
  | nil => simp [blocks]
  | cons block rest ih =>
    have hcons : (∀ (i : Nat) (b : Block), (block :: rest)[i]? = some b →
        b.WellFormed count (position + i)) ↔ block.WellFormed count position ∧
          ∀ (i : Nat) (b : Block), rest[i]? = some b → b.WellFormed count (position + 1 + i) := by
      constructor
      · intro h
        refine ⟨h 0 block rfl, fun i b hb => ?_⟩
        rw [Nat.add_right_comm]
        exact h (i + 1) b hb
      · rintro ⟨hblock, h⟩ i b hb
        cases i with
        | zero => exact Option.some.inj hb ▸ hblock
        | succ i => exact Nat.add_right_comm position 1 i ▸ h i b hb
    rw [hcons, List.flatMap_cons, List.filterMap_append, accepts_append, wellFormed_iff, blocks]
    by_cases hi : block.index = position
    · by_cases he : block.instructions = []
      · simp [hi, he, Outcome.failAt]
      · simp only [hi, he, ne_eq, not_true_eq_false, if_false, List.isEmpty_iff, Outcome.bind_eq_ok,
          instructions_eq_ok, ih, not_false_eq_true, true_and]
        constructor
        · rintro ⟨mid, ⟨ha, hin, ht⟩, hb, hrest⟩
          exact ⟨⟨mid, ha, hb⟩, ⟨hin, ht⟩, hrest⟩
        · rintro ⟨⟨mid, ha, hb⟩, ⟨hin, ht⟩, hrest⟩
          exact ⟨mid, ⟨ha, hin, ht⟩, hb, hrest⟩
    · simp [hi, Outcome.failAt]

theorem function_eq_ok {f : Function} :
    function ids f = .ok ids' ↔ Accepts ids f.defines ids' ∧ f.WellFormed := by
  simp only [function, Outcome.bind_eq_ok, parameters_eq_ok, blocks_eq_ok, Function.defines,
    Function.code, accepts_append, Function.WellFormed, Nat.zero_add]
  constructor
  · rintro ⟨mid, hp, hb, hw⟩
    exact ⟨⟨mid, hp, hb⟩, hw⟩
  · rintro ⟨⟨mid, hp, hb⟩, hw⟩
    exact ⟨mid, hp, hb, hw⟩

theorem run_eq_ok {functions : List Function} :
    (run ids functions).1 = .ok () ↔ FreshIds ids (functions.flatMap Function.defines) ∧
      ∀ f ∈ functions, f.WellFormed := by
  induction functions generalizing ids with
  | nil => simp [run, freshIds_nil]
  | cons f rest ih =>
    rw [List.flatMap_cons, freshIds_append, List.forall_mem_cons]
    have hrun : (run ids (f :: rest)).1 = .ok () ↔
        ∃ mid, function ids f = .ok mid ∧ (run mid rest).1 = .ok () := by
      rw [run]
      cases hf : function ids f with
      | error e => simp [Outcome.within, Except.mapError]
      | ok mid =>
        simp only [Outcome.within, Except.mapError]
        split <;> simp
    simp only [hrun, function_eq_ok, ih, Accepts]
    constructor
    · rintro ⟨mid, ⟨⟨hf, rfl⟩, hw⟩, hrest, hws⟩
      exact ⟨⟨hf, hrest⟩, hw, hws⟩
    · rintro ⟨⟨hf, hrest⟩, hw, hws⟩
      exact ⟨_, ⟨⟨hf, rfl⟩, hw⟩, hrest, hws⟩

end Verifier

theorem Verifier.staysInside_iff {count : Nat} {target : Option BlockLink} :
    staysInside count target = true ↔ ∃ t : BlockLink, target = some t ∧ 0 ≤ t.index ∧
      t.index < count ∧ t.place = .own t.index.toNat := by
  cases target with
  | none => simp [staysInside]
  | some t => simp [staysInside, and_assoc]

/-- The terminator of a block stands at its last position, and at no other. -/
theorem Verifier.terminated_iff_getElem? {code : List Instruction} :
    Terminated code ↔ ∀ (j : Nat) (x : Instruction), code[j]? = some x →
      (x.isTerminator = true ↔ j + 1 = code.length) := by
  induction code with
  | nil => simp [Terminated]
  | cons x rest ih =>
    have hrest : (∀ (j : Nat) (y : Instruction), (x :: rest)[j]? = some y →
        (y.isTerminator = true ↔ j + 1 = (x :: rest).length)) ↔
        (x.isTerminator = true ↔ rest = []) ∧ ∀ (j : Nat) (y : Instruction), rest[j]? = some y →
          (y.isTerminator = true ↔ j + 1 = rest.length) := by
      have hfirst : 0 + 1 = (x :: rest).length ↔ rest = [] := by cases rest <;> simp
      constructor
      · intro h
        refine ⟨(h 0 x rfl).trans hfirst, fun j y hy => ?_⟩
        simpa using h (j + 1) y hy
      · rintro ⟨hx, h⟩ j y hy
        cases j with
        | zero =>
          cases hy
          exact hx.trans hfirst.symm
        | succ j => simpa using h j y hy
    rw [hrest, ← ih]
    cases rest with
    | nil => simp [Terminated]
    | cons y rest => simp [Terminated]

/-- The verifier accepts functions if and only if no id is negative or defined twice among all of
them, and each block is labelled by its position, is not empty, ends in its only terminator and
branches only to the very block that stands in its function where the target's label says. -/
theorem verify_eq_ok_iff (functions : List Function) : verify functions = .ok () ↔
    (∀ id ∈ functions.flatMap Function.defines, 0 ≤ id) ∧
      (functions.flatMap Function.defines).Nodup ∧
      ∀ f ∈ functions, ∀ (i : Nat) (block : Block), f.blocks[i]? = some block →
        block.index = i ∧ block.instructions ≠ [] ∧
          (∀ (j : Nat) (x : Instruction), block.instructions[j]? = some x →
            (x.isTerminator = true ↔ j + 1 = block.instructions.length)) ∧
          ∀ loc target, .branch loc target ∈ block.instructions →
            ∃ t : BlockLink, target = some t ∧ 0 ≤ t.index ∧ t.index < f.blocks.length ∧
              t.place = .own t.index.toNat := by
  have hids : FreshIds Verifier.noIds (functions.flatMap Function.defines) ↔
      (∀ id ∈ functions.flatMap Function.defines, 0 ≤ id) ∧
        (functions.flatMap Function.defines).Nodup :=
    ⟨fun h => ⟨h.nonneg, h.nodup⟩, fun h => ⟨h.1, fun id _ => Verifier.has_noIds id, h.2⟩⟩
  have hinside (count : Nat) (block : Block) : (∀ x ∈ block.instructions, x.Inside count) ↔
      ∀ loc target, .branch loc target ∈ block.instructions → ∃ t : BlockLink,
        target = some t ∧ 0 ≤ t.index ∧ t.index < count ∧ t.place = .own t.index.toNat := by
    simp only [Instruction.Inside, Verifier.staysInside_iff]
    exact ⟨fun h loc target hx => h _ hx loc target rfl, fun h x hx loc target he =>
      h loc target (he ▸ hx)⟩
  rw [verify, Verifier.run_eq_ok, hids, and_assoc]
  simp only [Function.WellFormed, Verifier.wellFormed_iff, hinside,
    Verifier.terminated_iff_getElem?]
  constructor
  · rintro ⟨hn, hd, hw⟩
    refine ⟨hn, hd, fun f hf i block hb => ?_⟩
    obtain ⟨hi, hne, hin, ht⟩ := hw f hf i block hb
    exact ⟨hi, hne, ht, hin⟩
  · rintro ⟨hn, hd, hw⟩
    refine ⟨hn, hd, fun f hf i block hb => ?_⟩
    obtain ⟨hi, hne, ht, hin⟩ := hw f hf i block hb
    exact ⟨hi, hne, hin, ht⟩

end ScopeIR
