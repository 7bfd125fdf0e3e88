import Mathlib.Data.List.Sort
import Mathlib.Logic.Relation
import ScopeIR.Reachability

/-! The search for unreachable blocks. At any time the positions seen are reachable, and those
whose branches were not followed yet are in the heap; so when the heap is empty, all reachable
positions are seen. -/
namespace ScopeIR

open Relation

namespace Search

variable {n : Nat} {heap : Heap (Fin n)} {label? : Fin n → Option Int} {start : Fin n}
  {s s' : Search heap}

def Leads (label? : Fin n → Option Int) (i j : Fin n) : Prop := label? i = some (j : Int)

/-- What a search from a position has found. -/
structure Explores (label? : Fin n → Option Int) (start : Fin n) (s : Search heap) : Prop where
  started : s.seen.mem start
  reached : ∀ i : Fin n, s.seen.mem i → ReflTransGen (Leads label?) start i
  queued : ∀ i ∈ heap.held s.queue, s.seen.mem i
  followed : ∀ i j : Fin n, s.seen.mem i → Leads label? i j →
    s.seen.mem j ∨ i ∈ heap.held s.queue

theorem Explores.step (h : s.Explores label? start) (hs : s.step? label? = some s') :
    s'.Explores label? start := by
  obtain ⟨position, rest, hheld, rfl⟩ := exists_of_step? hs
  have hmem : ∀ i, i ∈ heap.held s.queue ↔ i = position ∨ i ∈ heap.held rest :=
    fun i => hheld.mem_iff.trans List.mem_cons
  have hposition := h.reached position (h.queued position ((hmem _).mpr (.inl rfl)))
  rcases s.follow_cases label? position rest with
    ⟨next, hlabel, -, hseen, hqueue⟩ | ⟨hknown, hseen, hqueue⟩
  · have hpush : ∀ i, i ∈ heap.held (heap.push next rest) ↔ i = next ∨ i ∈ heap.held rest :=
      fun i => (heap.held_push next rest).mem_iff.trans List.mem_cons
    have hnew : ∀ i : Fin n, (s.follow label? position rest).seen.mem i ↔
        s.seen.mem i ∨ i = next := by
      intro i
      simp [hseen, Fin.val_inj]
    refine ⟨(hnew start).mpr (.inl h.started), fun i hi => ?_, fun i hi => ?_, fun i j hi hl => ?_⟩
    · rcases (hnew i).mp hi with hi | rfl
      · exact h.reached i hi
      · exact hposition.tail hlabel
    · rw [hqueue, hpush] at hi
      rcases hi with rfl | hi
      · exact (hnew i).mpr (.inr rfl)
      · exact (hnew i).mpr (.inl (h.queued i ((hmem i).mpr (.inr hi))))
    · rw [hqueue, hpush, hnew]
      rcases (hnew i).mp hi with hi | rfl
      · rcases h.followed i j hi hl with hj | hi
        · exact .inl (.inl hj)
        · rcases (hmem i).mp hi with rfl | hi
          · have hj : (j : Int) = next := Option.some.inj (hl.symm.trans hlabel)
            exact .inl (.inr (Fin.ext (Int.ofNat_inj.mp hj)))
          · exact .inr (.inr hi)
      · exact .inr (.inl rfl)
  · refine ⟨(hseen start).trans h.started, fun i hi => h.reached i ((hseen i).symm.trans hi),
      fun i hi => ?_, fun i j hi hl => ?_⟩
    · rw [hqueue] at hi
      exact (hseen i).trans (h.queued i ((hmem i).mpr (.inr hi)))
    · rw [hqueue, hseen]
      rcases h.followed i j ((hseen i).symm.trans hi) hl with hj | hi
      · exact .inl hj
      · rcases (hmem i).mp hi with rfl | hi
        · exact .inl (hknown j hl)
        · exact .inr hi

/-- With an empty heap, what was seen is closed under labels. -/
theorem Explores.complete (h : s.Explores label? start) (hs : s.step? label? = none) {i : Fin n}
    (hi : ReflTransGen (Leads label?) start i) : s.seen.mem i := by
  have hempty : heap.held s.queue = [] := heap.held_of_pop?_none (Option.map_eq_none_iff.mp hs)
  induction hi with
  | refl => exact h.started
  | tail _ hl ih =>
    refine (h.followed _ _ ih hl).resolve_right fun hq => ?_
    rw [hempty] at hq
    cases hq

theorem Explores.mem_run (h : s.Explores label? start) (i : Fin n) :
    (s.run label?).mem i ↔ ReflTransGen (Leads label?) start i := by
  induction s using Search.run.induct label? with
  | case1 s s' hs ih =>
    rw [run]
    split
    · rename_i s'' hs''
      obtain rfl : s' = s'' := Option.some.inj (hs.symm.trans hs'')
      exact ih (h.step hs)
    · rename_i hnone
      cases hs.symm.trans hnone
  | case2 s hs =>
    rw [run]
    split
    · rename_i s' hs'
      cases hs.symm.trans hs'
    · exact ⟨h.reached i, h.complete hs⟩

theorem explores_start (heap : Heap (Fin n)) (label? : Fin n → Option Int) (start : Fin n) :
    Explores label? start ⟨((Bits.ofSize n).add start).2, heap.push start heap.empty⟩ := by
  have hseen : ∀ i : Fin n, ((Bits.ofSize n).add start).2.mem i ↔ i = start := by
    intro i
    rw [← Bits.has_natCast, Bits.has_add, Bits.has_ofSize]
    simp only [Int.natCast_nonneg, Int.ofNat_inj, true_and, Bool.false_or, decide_eq_true_eq,
      Fin.ext_iff]
  have hqueue : ∀ i, i ∈ heap.held (heap.push start heap.empty) ↔ i = start := by
    intro i
    rw [(heap.held_push start heap.empty).mem_iff, heap.held_empty, List.mem_singleton]
  refine ⟨(hseen start).mpr rfl, fun i hi => ?_, fun i hi => ?_, fun i j hi _ => ?_⟩
  · rw [(hseen i).mp hi]
  · exact (hseen i).mpr ((hqueue i).mp hi)
  · exact .inr ((hqueue i).mpr ((hseen i).mp hi))

end Search

theorem Block.label?_eq (block : Block) :
    block.label? = block.instructions.getLast?.bind Instruction.label? := by
  rw [Block.label?, Block.terminator?]
  cases block.instructions.getLast? with
  | none => rfl
  | some x =>
    cases x with
    | branch loc target => rfl
    | _ => rfl

namespace Function

variable (f : Function)

/-- The block at a position ends in a branch to a block that is labelled with the other one. -/
def Branches (i j : Nat) : Prop :=
  ∃ block loc target, f.blocks[i]? = some block ∧
    block.instructions.getLast? = some (.branch loc (some target)) ∧ target.index = j ∧
    j < f.blocks.length

/-- Control can get from the first block to the one at the position. -/
def Reaches (i : Nat) : Prop := ReflTransGen f.Branches 0 i

variable {f}

theorem branches_iff {i j : Nat} : f.Branches i j ↔
    ∃ block, f.blocks[i]? = some block ∧ block.label? = some (j : Int) ∧ j < f.blocks.length := by
  constructor
  · rintro ⟨block, loc, target, hblock, hlast, hindex, hj⟩
    exact ⟨block, hblock, by rw [Block.label?_eq, hlast, ← hindex]; rfl, hj⟩
  · rintro ⟨block, hblock, hlabel, hj⟩
    obtain ⟨x, hlast, hx⟩ := Option.bind_eq_some_iff.mp (block.label?_eq ▸ hlabel)
    cases x with
    | branch loc target =>
      cases target with
      | some target => exact ⟨block, loc, target, hblock, hlast, Option.some.inj hx, hj⟩
      | none => cases hx
    | call | ret | scope => cases hx

theorem branches_iff_leads {i j : Fin f.blocks.length} : f.Branches i j ↔
    Search.Leads (fun position => (f.blocks.get position).label?) i j := by
  rw [branches_iff, Search.Leads]
  simp

/-- Paths stay inside the function. -/
theorem reaches_iff (h : 0 < f.blocks.length) {i : Nat} : f.Reaches i ↔ ∃ hi : i < f.blocks.length,
    ReflTransGen (Search.Leads fun position => (f.blocks.get position).label?) ⟨0, h⟩ ⟨i, hi⟩ := by
  constructor
  · intro hpath
    induction hpath with
    | refl => exact ⟨h, .refl⟩
    | tail _ hbranch ih =>
      obtain ⟨hi, hleads⟩ := ih
      obtain ⟨_, _, _, _, _, _, hj⟩ := id hbranch
      exact ⟨hj, hleads.tail (branches_iff_leads (i := ⟨_, hi⟩) (j := ⟨_, hj⟩).mp hbranch)⟩
  · rintro ⟨hi, hpath⟩
    exact hpath.lift Fin.val fun _ _ hl => branches_iff_leads.mpr hl

theorem mem_unreachableBy (heap : Heap (Fin f.blocks.length)) (i : Nat) :
    i ∈ f.unreachableBy heap ↔ i < f.blocks.length ∧ ¬ f.Reaches i := by
  unfold unreachableBy unvisited
  split
  · rename_i h
    rw [List.mem_filter, List.mem_range]
    refine and_congr_right fun hi => ?_
    have hrun := (Search.explores_start heap (fun position => (f.blocks.get position).label?)
      ⟨0, h⟩).mem_run ⟨i, hi⟩
    rw [reaches_iff h, Bool.not_eq_true', Bits.has_natCast, ← Bool.not_eq_true]
    exact not_congr (hrun.trans ⟨fun hl => ⟨hi, hl⟩, fun ⟨_, hl⟩ => hl⟩)
  · rename_i h
    exact ⟨fun hm => (List.not_mem_nil hm).elim, fun hm => absurd (Nat.zero_lt_of_lt hm.1) h⟩

theorem pairwise_unreachableBy (heap : Heap (Fin f.blocks.length)) :
    (f.unreachableBy heap).Pairwise (· < ·) := by
  unfold unreachableBy unvisited
  split
  · exact List.pairwise_lt_range.filter _
  · exact .nil

/-- The blocks found are, in ascending order, those that no path of branches from the first
block leads to; the order in which the heap gives positions back makes no difference. -/
theorem unreachable_exact (f : Function) :
    f.unreachable.Pairwise (· < ·) ∧
      (∀ i, i ∈ f.unreachable ↔ i < f.blocks.length ∧ ¬ f.Reaches i) ∧
      (f.blocks = [] → f.unreachable = []) ∧
      ∀ heap, f.unreachableBy heap = f.unreachable := by
  refine ⟨pairwise_unreachableBy _, mem_unreachableBy _, fun h => ?_, fun heap => ?_⟩
  · refine List.eq_nil_iff_forall_not_mem.mpr fun i hi => ?_
    have hlt := ((mem_unreachableBy _ i).mp hi).1
    rw [h] at hlt
    exact Nat.not_lt_zero i hlt
  · refine (pairwise_unreachableBy heap).eq_of_mem_iff (pairwise_unreachableBy _) fun i => ?_
    exact (mem_unreachableBy heap i).trans (mem_unreachableBy _ i).symm

end Function

end ScopeIR
